import FreeBSDKern.Sem.Adjust
import FreeBSDKern.Sem.Range

/-!
# Forgetting Entries

`semundo_clear` removes the entries of a semaphore, or of a set, from all undo
structures. An entry is removed by moving the last one to its place, and the
loop goes on behind that place: the entry that has been moved is never looked
at. For a single semaphore the loop also ends at the first entry of the set that
belongs to another one.

So it depends on the order of the entries whether the loop finds them all. It
does exactly if each entry to go has at least as many entries behind it as there
are entries to go before it, and no entry before it that belongs to its set and
stays (`Clears`).

## Main definitions

* `Goes`: An entry is to be removed.
* `Clears`: The loop finds all entries that are to be removed.
* `Cleared`: What `semundo_clear` is for.

## Theorems

* `clearLoop_clears`: The loop, over the entries of one structure.
* `clearIn_cleared`: One structure.
* `semundoClear_exact`: All structures.
* `removed_set_owed`: A set is removed, and a process still has an entry for it.
-/

namespace FreeBSDKern.Sem

open Lib Function

/-- An entry of the semaphore, or of the set. -/
def Goes (semid : Nat) (semnum : Option Nat) (e : Undo) : Prop :=
  e.id = semid ∧ (semnum = none ∨ semnum = some e.num)

instance (semid : Nat) (semnum : Option Nat) (e : Undo) : Decidable (Goes semid semnum e) :=
  inferInstanceAs (Decidable (_ ∧ _))

/-- The entries that stay. -/
def stays (semid : Nat) (semnum : Option Nat) (ents : List Undo) : List Undo :=
  ents.filter (fun e => ¬ Goes semid semnum e)

/-- Each entry that is to go has enough entries behind it for those to go before
    it, and none of its set that stays before it. -/
def Clears (semid : Nat) (semnum : Option Nat) (ents : List Undo) : Prop :=
  ∀ front e behind, ents = front ++ e :: behind → Goes semid semnum e →
    (∀ d ∈ front, d.id = semid → Goes semid semnum d) ∧
      front.countP (fun d => Goes semid semnum d) ≤ behind.length

variable {semid : Nat} {semnum : Option Nat}

-- The condition place by place.
theorem clears_iff (ents : List Undo) : Clears semid semnum ents ↔
    ∀ i < ents.length, ∀ e ∈ ents[i]?, Goes semid semnum e →
      (∀ d ∈ ents.take i, d.id = semid → Goes semid semnum d) ∧
        (ents.take i).countP (fun d => Goes semid semnum d) + i < ents.length := by
  constructor
  · intro h i hi e he hgo
    rw [Option.mem_def, List.getElem?_eq_getElem hi, Option.some.injEq] at he
    have hsplit : ents = ents.take i ++ e :: ents.drop (i + 1) := by
      rw [← he, ← List.drop_eq_getElem_cons hi, List.take_append_drop]
    rcases h (ents.take i) e (ents.drop (i + 1)) hsplit hgo with ⟨hset, hcount⟩
    rw [List.length_drop] at hcount
    exact ⟨hset, by omega⟩
  intro h front e behind heq hgo
  have hlen : ents.length = front.length + (behind.length + 1) := by
    rw [heq, List.length_append, List.length_cons]
  have hget : ents[front.length]? = some e := by
    rw [heq, List.getElem?_append_right le_rfl, Nat.sub_self, List.getElem?_cons_zero]
  have htake : ents.take front.length = front := by
    rw [heq, List.take_left' rfl]
  rcases h front.length (by omega) e hget hgo with ⟨hset, hcount⟩
  rw [htake] at hset hcount
  exact ⟨hset, by omega⟩

instance (semid : Nat) (semnum : Option Nat) (ents : List Undo) :
    Decidable (Clears semid semnum ents) :=
  decidable_of_iff' _ (clears_iff ents)

theorem clears_nil : Clears semid semnum [] := by
  intro front e behind heq
  exact absurd heq.symm (by simp)

-- An entry of another set stands before the others.
theorem clears_cons_other {e : Undo} {ents : List Undo} (he : e.id ≠ semid) :
    Clears semid semnum (e :: ents) ↔ Clears semid semnum ents := by
  have hgo : ¬ Goes semid semnum e := fun hg => he hg.1
  constructor
  · intro h front d behind heq hd
    rcases h (e :: front) d behind (by rw [heq, List.cons_append]) hd with ⟨hset, hcount⟩
    rw [List.countP_cons_of_neg (by simpa using hgo)] at hcount
    exact ⟨fun c hc => hset c (List.mem_cons_of_mem e hc), hcount⟩
  intro h front d behind heq hd
  cases front with
  | nil =>
    rw [List.nil_append, List.cons.injEq] at heq
    exact absurd (heq.1 ▸ hd) hgo
  | cons c front =>
    rw [List.cons_append, List.cons.injEq] at heq
    rcases heq with ⟨rfl, heq⟩
    rcases h front d behind heq hd with ⟨hset, hcount⟩
    refine ⟨fun b hb hid => ?_, ?_⟩
    · rcases List.mem_cons.mp hb with rfl | hb
      · exact absurd hid he
      · exact hset b hb hid
    · rw [List.countP_cons_of_neg (by simpa using hgo)]
      exact hcount

-- An entry of the set that stays ends the loop.
theorem clears_cons_stay {e : Undo} {ents : List Undo} (hid : e.id = semid)
    (hgo : ¬ Goes semid semnum e) :
    Clears semid semnum (e :: ents) ↔ ∀ d ∈ ents, ¬ Goes semid semnum d := by
  constructor
  · intro h d hd hgoes
    rcases List.append_of_mem hd with ⟨front, behind, rfl⟩
    exact hgo ((h (e :: front) d behind rfl hgoes).1 e List.mem_cons_self hid)
  intro h front d behind heq hd
  cases front with
  | nil =>
    rw [List.nil_append, List.cons.injEq] at heq
    exact absurd (heq.1 ▸ hd) hgo
  | cons c front =>
    rw [List.cons_append, List.cons.injEq] at heq
    exact absurd hd (h d (by rw [heq.2]; exact List.mem_append_cons_self))

-- An entry goes, and the last one comes to its place.
theorem clears_cons_go {e l : Undo} {mid : List Undo} (he : Goes semid semnum e) :
    Clears semid semnum (e :: (mid ++ [l])) ↔ ¬ Goes semid semnum l ∧ Clears semid semnum mid := by
  constructor
  · intro h
    refine ⟨fun hl => ?_, fun front d behind heq hd => ?_⟩
    · have hcount := (h (e :: mid) l [] rfl hl).2
      rw [List.countP_cons_of_pos (by simpa using he)] at hcount
      cases hcount
    have hwhole : e :: (mid ++ [l]) = (e :: front) ++ d :: (behind ++ [l]) := by
      rw [heq, List.cons_append, List.append_assoc, List.cons_append]
    rcases h (e :: front) d (behind ++ [l]) hwhole hd with ⟨hset, hcount⟩
    rw [List.countP_cons_of_pos (by simpa using he), List.length_append,
      List.length_singleton] at hcount
    exact ⟨fun c hc => hset c (List.mem_cons_of_mem e hc), Nat.le_of_add_le_add_right hcount⟩
  rintro ⟨hl, hmid⟩ front d behind heq hd
  cases front with
  | nil => exact ⟨fun c hc => absurd hc List.not_mem_nil, zero_le⟩
  | cons c front =>
    rw [List.cons_append, List.cons.injEq] at heq
    rcases heq with ⟨rfl, heq⟩
    rcases List.eq_nil_or_concat behind with rfl | ⟨behind, b, rfl⟩
    · -- The last entry does not go.
      have hlast := (List.append_inj' heq rfl).2
      rw [List.cons.injEq] at hlast
      exact absurd (hlast.1 ▸ hd) hl
    rw [List.concat_eq_append] at heq ⊢
    have hsplit : mid ++ [l] = (front ++ d :: behind) ++ [b] := by
      rw [heq, List.append_assoc, List.cons_append]
    rcases hmid front d behind (List.append_inj' hsplit rfl).1 hd with ⟨hset, hcount⟩
    refine ⟨fun b hb hid => ?_, ?_⟩
    · rcases List.mem_cons.mp hb with rfl | hb
      · exact he
      · exact hset b hb hid
    · rw [List.countP_cons_of_pos (by simpa using he), List.length_append, List.length_singleton]
      exact Nat.add_le_add_right hcount 1

theorem removeEnt_last (done : List Undo) (e : Undo) :
    removeEnt (done ++ [e]) done.length = done := by
  unfold removeEnt
  rw [List.getLast?_append, List.getLast?_singleton, Option.some_or]
  simp only
  rw [List.set_append_right _ _ le_rfl, Nat.sub_self, List.set_cons_zero,
    List.dropLast_concat]

theorem removeEnt_moves (done mid : List Undo) (e l : Undo) :
    removeEnt (done ++ e :: (mid ++ [l])) done.length = done ++ l :: mid := by
  have hlast : (done ++ e :: (mid ++ [l])).getLast? = some l := by
    rw [← List.cons_append, ← List.append_assoc, List.getLast?_append, List.getLast?_singleton,
      Option.some_or]
  unfold removeEnt
  rw [hlast]
  simp only
  rw [List.set_append_right _ _ le_rfl, Nat.sub_self, List.set_cons_zero,
    ← List.cons_append, ← List.append_assoc, List.dropLast_concat]

theorem stays_cons_go {e : Undo} (he : Goes semid semnum e) (ents : List Undo) :
    stays semid semnum (e :: ents) = stays semid semnum ents :=
  List.filter_cons_of_neg (by simpa using he)

theorem stays_cons_stay {e : Undo} (he : ¬ Goes semid semnum e) (ents : List Undo) :
    stays semid semnum (e :: ents) = e :: stays semid semnum ents :=
  List.filter_cons_of_pos (by simpa using he)

-- The entry in the hole counts as before.
theorem stays_moves {e : Undo} (he : Goes semid semnum e) (mid : List Undo) (l : Undo) :
    (stays semid semnum (l :: mid)).Perm (stays semid semnum (e :: (mid ++ [l]))) := by
  rw [stays_cons_go he]
  exact (List.perm_append_singleton l mid).symm.filter _

/-- The loop loses no entry that stays, and it finds all that go exactly if
    `Clears` says so. -/
theorem clearLoop_clears (fuel : Nat) : ∀ done rest : List Undo, rest.length ≤ fuel →
    ∃ rest', clearLoop semid semnum fuel done.length (done ++ rest) = done ++ rest' ∧
      (stays semid semnum rest').Perm (stays semid semnum rest) ∧
      ((∀ e ∈ rest', ¬ Goes semid semnum e) ↔ Clears semid semnum rest) := by
  have hgone : ∀ d ∈ ([] : List Undo), ¬ Goes semid semnum d :=
    fun d hd => absurd hd List.not_mem_nil
  induction fuel with
  | zero =>
    intro done rest hfuel
    rw [Nat.le_zero, List.length_eq_zero_iff] at hfuel
    subst hfuel
    exact ⟨[], rfl, List.Perm.refl _, fun _ => clears_nil, fun _ => hgone⟩
  | succ fuel ih =>
    intro done rest hfuel
    cases rest with
    | nil =>
      refine ⟨[], ?_, List.Perm.refl _, fun _ => clears_nil, fun _ => hgone⟩
      rw [clearLoop, List.append_nil, List.getElem?_eq_none le_rfl]
    | cons e rest =>
      rw [List.length_cons, Nat.succ_le_succ_iff] at hfuel
      have hget : (done ++ e :: rest)[done.length]? = some e := by
        rw [List.getElem?_append_right le_rfl, Nat.sub_self, List.getElem?_cons_zero]
      -- The loop passes an entry by.
      have hpass : ∀ (d : Undo) (l : List Undo), l.length ≤ fuel →
          ∃ l', clearLoop semid semnum fuel (done.length + 1) (done ++ d :: l) =
              done ++ d :: l' ∧ (stays semid semnum l').Perm (stays semid semnum l) ∧
            ((∀ c ∈ l', ¬ Goes semid semnum c) ↔ Clears semid semnum l) := by
        intro d l hl
        rcases ih (done ++ [d]) l hl with ⟨l', hrun, hperm, hiff⟩
        rw [List.length_append, List.length_singleton, List.append_assoc, List.append_assoc] at hrun
        exact ⟨l', hrun, hperm, hiff⟩
      rw [clearLoop, hget]
      simp only
      by_cases hid : e.id ≠ semid
      · have hgo : ¬ Goes semid semnum e := fun hg => hid hg.1
        rcases hpass e rest hfuel with ⟨rest', hrun, hperm, hiff⟩
        refine ⟨e :: rest', ?_, ?_, ?_⟩
        · rw [if_pos hid]
          exact hrun
        · rw [stays_cons_stay hgo, stays_cons_stay hgo]
          exact hperm.cons e
        · rw [List.forall_mem_cons, clears_cons_other hid, hiff]
          exact and_iff_right hgo
      rw [if_neg hid]
      have hid := not_not.mp hid
      by_cases hnum : semnum = none ∨ semnum = some e.num
      · have hgo : Goes semid semnum e := ⟨hid, hnum⟩
        rw [if_pos hnum]
        rcases List.eq_nil_or_concat rest with rfl | ⟨mid, l, rfl⟩
        · -- It is the last one.
          refine ⟨[], ?_, ?_, ?_⟩
          · rw [removeEnt_last, if_neg (lt_irrefl _), List.append_nil]
            split
            case isTrue => rfl
            case isFalse =>
            cases fuel with
            | zero => rfl
            | succ fuel =>
              rw [clearLoop, List.getElem?_eq_none (Nat.le_succ _)]
          · rw [stays_cons_go hgo]
          refine ⟨fun _ front d behind heq hd => ?_, fun _ => hgone⟩
          cases front with
          | nil => exact ⟨fun c hc => absurd hc List.not_mem_nil, zero_le⟩
          | cons c front =>
            rw [List.cons_append, List.cons.injEq] at heq
            exact absurd heq.2.symm (by simp)
        -- The last one comes to its place, and the loop passes it by.
        rw [List.concat_eq_append] at hfuel ⊢
        rw [List.length_append, List.length_singleton] at hfuel
        rcases hpass l mid (Nat.le_of_succ_le hfuel) with ⟨mid', hrun, hperm, hiff⟩
        refine ⟨l :: mid', ?_, ?_, ?_⟩
        · rw [removeEnt_moves, if_pos (by simp)]
          exact hrun
        · refine List.Perm.trans ?_ (stays_moves hgo mid l)
          by_cases hl : Goes semid semnum l
          · rw [stays_cons_go hl, stays_cons_go hl]
            exact hperm
          · rw [stays_cons_stay hl, stays_cons_stay hl]
            exact hperm.cons l
        · rw [List.forall_mem_cons, clears_cons_go hgo, hiff]
      · have hgo : ¬ Goes semid semnum e := fun hg => hnum hg.2
        have hsome : semnum ≠ none := fun hnone => hnum (Or.inl hnone)
        refine ⟨e :: rest, ?_, List.Perm.refl _, ?_⟩
        · rw [if_neg hnum, if_pos hsome]
        · rw [List.forall_mem_cons, clears_cons_stay hid hgo]
          exact and_iff_right hgo

/-- The loop over the entries of a structure is exact if and only if `Clears` says so. -/
theorem clearLoop_exact (ents : List Undo) :
    (clearLoop semid semnum ents.length 0 ents).Perm (stays semid semnum ents) ↔
      Clears semid semnum ents := by
  rcases @clearLoop_clears semid semnum ents.length [] ents le_rfl with
    ⟨rest, hrun, hperm, hiff⟩
  rw [List.length_nil, List.nil_append, List.nil_append] at hrun
  rw [hrun, ← hiff]
  constructor
  · intro h e he hgo
    have hstay := List.of_mem_filter (h.subset he)
    exact of_decide_eq_true hstay hgo
  intro h
  have hall : stays semid semnum rest = rest :=
    List.filter_eq_self.mpr (fun e he => decide_eq_true (h e he))
  rwa [hall] at hperm

/-- What `semundo_clear` is for. The entries to go are in no structure of the list, all
    others stand in it as often as before, and a structure that has lost its last entry is
    on the free list. -/
structure Cleared (semid : Nat) (semnum : Option Nat) (u u' : Undos) : Prop where
  entries : ∀ s ∈ u.list, (u'.pool s).ents.Perm (stays semid semnum (u.pool s).ents)
  others : ∀ s, s ∉ u.list → u'.pool s = u.pool s
  proc : ∀ s, (u'.pool s).proc = (u.pool s).proc
  list : ∀ s, s ∈ u'.list ↔ s ∈ u.list ∧ ((u.pool s).ents ≠ [] → (u'.pool s).ents ≠ [])
  free : ∀ s, s ∈ u'.free ↔ s ∈ u.free ∨ (s ∈ u.list ∧ (u.pool s).ents ≠ [] ∧ (u'.pool s).ents = [])

/-- The structures of `l` have been gone through. -/
structure Swept (semid : Nat) (semnum : Option Nat) (l : List Nat) (u u' : Undos) : Prop where
  once : (u'.list ++ u'.free).Nodup
  entries : ∀ s ∈ l,
    (u'.pool s).ents = clearLoop semid semnum (u.pool s).ents.length 0 (u.pool s).ents
  others : ∀ s, s ∉ l → u'.pool s = u.pool s
  proc : ∀ s, (u'.pool s).proc = (u.pool s).proc
  list : ∀ s, s ∈ u'.list ↔ s ∈ u.list ∧ (s ∈ l → (u.pool s).ents ≠ [] → (u'.pool s).ents ≠ [])
  free : ∀ s, s ∈ u'.free ↔ s ∈ u.free ∨ (s ∈ l ∧ (u.pool s).ents ≠ [] ∧ (u'.pool s).ents = [])

theorem clearIn_swept {u : Undos} (h : (u.list ++ u.free).Nodup) {s : Nat} (hs : s ∈ u.list) :
    Swept semid semnum [s] u (clearIn semid semnum u s) := by
  have hlist := (List.nodup_append.mp h).1
  have hfree : s ∉ u.free := fun hin => (List.nodup_append.mp h).2.2 s hs s hin rfl
  unfold clearIn
  generalize hents : clearLoop semid semnum (u.pool s).ents.length 0 (u.pool s).ents = ents
  have hpool : ∀ t, t ≠ s → update u.pool s { u.pool s with ents := ents } t = u.pool t :=
    fun t ht => update_of_ne ht _ _
  have hself : update u.pool s { u.pool s with ents := ents } s =
      { u.pool s with ents := ents } := update_self _ _ _
  have hproc : ∀ t, (update u.pool s { u.pool s with ents := ents } t).proc = (u.pool t).proc := by
    intro t
    by_cases ht : t = s
    · rw [ht, hself]
    · rw [hpool t ht]
  have hset : ∀ t ∈ [s], (update u.pool s { u.pool s with ents := ents } t).ents =
      clearLoop semid semnum (u.pool t).ents.length 0 (u.pool t).ents := by
    intro t ht
    rw [List.mem_singleton.mp ht, hself, hents]
  have hrest : ∀ t, t ∉ [s] → update u.pool s { u.pool s with ents := ents } t = u.pool t :=
    fun t ht => hpool t (fun heq => ht (List.mem_singleton.mpr heq))
  simp only
  split
  case isTrue hempty =>
    -- The structure goes to the free list.
    have hnil : (update u.pool s { u.pool s with ents := ents } s).ents = [] := by
      rw [hself]
      exact hempty.1
    have htry : semuTryFree { u with
        pool := update u.pool s { u.pool s with ents := ents } } s =
        { pool := update u.pool s { u.pool s with ents := ents }
          list := u.list.erase s, free := s :: u.free } := by
      unfold semuTryFree
      rw [if_neg (not_not.mpr hnil), List.erase_of_not_mem hfree]
    rw [htry]
    refine ⟨?_, hset, hrest, hproc, fun t => ?_, fun t => ?_⟩
    · have hperm : (u.list.erase s ++ s :: u.free).Perm (u.list ++ u.free) :=
        List.perm_middle.trans ((List.perm_cons_erase hs).symm.append_right u.free)
      exact hperm.nodup_iff.mpr h
    · rw [hlist.mem_erase_iff]
      constructor
      · exact fun ht => ⟨ht.2, fun hts => absurd (List.mem_singleton.mp hts) ht.1⟩
      intro ht
      refine ⟨fun heq => ?_, ht.1⟩
      subst heq
      exact ht.2 (List.mem_singleton_self t) hempty.2 hnil
    rw [List.mem_cons, List.mem_singleton]
    constructor
    · intro ht
      rcases ht with rfl | ht
      · exact Or.inr ⟨rfl, hempty.2, hnil⟩
      · exact Or.inl ht
    intro ht
    rcases ht with ht | ht
    · exact Or.inr ht
    · exact Or.inl ht.1
  case isFalse hkept =>
  refine ⟨h, hset, hrest, hproc, fun t => ?_, fun t => ?_⟩
  · refine ⟨fun ht => ⟨ht, fun hts hne hnil => ?_⟩, fun ht => ht.1⟩
    have hts := List.mem_singleton.mp hts
    subst hts
    simp only [update_self] at hnil
    exact hkept ⟨hnil, hne⟩
  refine ⟨Or.inl, fun ht => ?_⟩
  rcases ht with ht | ⟨hts, hne, hnil⟩
  · exact ht
  have hts := List.mem_singleton.mp hts
  subst hts
  simp only [update_self] at hnil
  exact absurd ⟨hnil, hne⟩ hkept

-- One structure more.
theorem Swept.cons {s : Nat} {l : List Nat} {u v w : Undos} (hs : s ∉ l)
    (h : Swept semid semnum [s] u v) (hl : Swept semid semnum l v w) :
    Swept semid semnum (s :: l) u w := by
  have hkept : ∀ t ∈ l, v.pool t = u.pool t := by
    intro t ht
    refine h.others t (fun hts => hs ?_)
    rwa [← List.mem_singleton.mp hts]
  have hself : w.pool s = v.pool s := hl.others s hs
  refine ⟨hl.once, fun t ht => ?_, fun t ht => ?_, fun t => (hl.proc t).trans (h.proc t),
    fun t => ?_, fun t => ?_⟩
  · rcases List.mem_cons.mp ht with rfl | ht
    · rw [hself]
      exact h.entries t (List.mem_singleton_self t)
    · rw [hl.entries t ht, hkept t ht]
  · rw [List.mem_cons, not_or] at ht
    rw [hl.others t ht.2]
    exact h.others t (fun hts => ht.1 (List.mem_singleton.mp hts))
  · rw [hl.list t, h.list t, and_assoc, List.mem_singleton, List.mem_cons]
    refine and_congr_right (fun _ => ?_)
    by_cases hts : t = s
    · subst hts
      rw [hself]
      exact ⟨fun ht _ => ht.1 rfl, fun ht => ⟨fun _ => ht (Or.inl rfl), fun htl => absurd htl hs⟩⟩
    by_cases htl : t ∈ l
    · rw [hkept t htl]
      exact ⟨fun ht _ => ht.2 htl, fun ht => ⟨fun heq => absurd heq hts, fun _ => ht (Or.inr htl)⟩⟩
    · exact ⟨fun _ hin => absurd hin (not_or.mpr ⟨hts, htl⟩),
        fun _ => ⟨fun heq => absurd heq hts, fun hin => absurd hin htl⟩⟩
  rw [hl.free t, h.free t, or_assoc, List.mem_singleton, List.mem_cons]
  refine or_congr_right ?_
  by_cases hts : t = s
  · subst hts
    rw [hself]
    exact ⟨fun ht => ht.elim (fun hl => ⟨Or.inl rfl, hl.2⟩) (fun hr => absurd hr.1 hs),
      fun ht => Or.inl ⟨rfl, ht.2⟩⟩
  by_cases htl : t ∈ l
  · rw [hkept t htl]
    exact ⟨fun ht => ht.elim (fun hl => absurd hl.1 hts) (fun hr => ⟨Or.inr hr.1, hr.2⟩),
      fun ht => Or.inr ⟨htl, ht.2⟩⟩
  · exact ⟨fun ht => ht.elim (fun hl => absurd hl.1 hts) (fun hr => absurd hr.1 htl),
      fun ht => absurd ht.1 (not_or.mpr ⟨hts, htl⟩)⟩

/-- The entries of a process after some structures have been gone through. -/
theorem Swept.entsOf {l : List Nat} {u u' : Undos} {id : Nat} {P : Nat → Prop} {ex : List Nat}
    (h : Swept semid semnum l u u') (hb : Books id P u ex) (hb' : Books id P u' ex) (p : Nat) :
    entsOf u' p = [] ∧ undoOf u p = none ∨
      ∃ s, undoOf u p = some s ∧ entsOf u' p = (u'.pool s).ents := by
  have hback : ∀ t ∈ u'.list, (u'.pool t).proc = some p → undoOf u p = some t :=
    fun t ht htp => hb.undoOf_eq ((h.list t).mp ht).1 ((h.proc t).symm.trans htp)
  cases hof : undoOf u p with
  | none =>
    refine Or.inl ⟨?_, rfl⟩
    unfold Sem.entsOf
    cases hof' : undoOf u' p with
    | none => rfl
    | some t =>
      have hold := hback t (undoOf_mem hof').1 (undoOf_mem hof').2
      rw [hof] at hold
      cases hold
  | some s =>
    refine Or.inr ⟨s, rfl, ?_⟩
    rcases undoOf_mem hof with ⟨hs, hp⟩
    by_cases hin : s ∈ u'.list
    · exact hb'.entsOf_eq hin ((h.proc s).trans hp)
    -- The structure has gone to the free list, and the process has no other.
    have hnil : (u'.pool s).ents = [] := by
      by_contra hne
      exact hin ((h.list s).mpr ⟨hs, fun _ _ => hne⟩)
    rw [hnil]
    unfold Sem.entsOf
    cases hof' : undoOf u' p with
    | none => rfl
    | some t =>
      have hold := hback t (undoOf_mem hof').1 (undoOf_mem hof').2
      rw [hof, Option.some.injEq] at hold
      exact absurd (hold ▸ (undoOf_mem hof').1) hin

theorem clearFold_swept : ∀ (l : List Nat) (u : Undos), (u.list ++ u.free).Nodup → l.Nodup →
    (∀ s ∈ l, s ∈ u.list) → Swept semid semnum l u (l.foldl (clearIn semid semnum) u) := by
  intro l
  induction l with
  | nil =>
    intro u h _ _
    exact ⟨h, fun s hs => absurd hs List.not_mem_nil, fun s _ => rfl, fun s => rfl,
      fun s => ⟨fun hs => ⟨hs, fun hin => absurd hin List.not_mem_nil⟩, fun hs => hs.1⟩,
      fun s => ⟨Or.inl, fun hs => hs.elim id (fun hin => absurd hin.1 List.not_mem_nil)⟩⟩
  | cons s l ih =>
    intro u h hnd hl
    rw [List.nodup_cons] at hnd
    have hfirst := @clearIn_swept semid semnum u h s (hl s List.mem_cons_self)
    refine hfirst.cons hnd.1 (ih _ hfirst.once hnd.2 (fun t ht => ?_))
    refine (hfirst.list t).mpr ⟨hl t (List.mem_cons_of_mem s ht), fun hts => ?_⟩
    exact absurd (List.mem_singleton.mp hts ▸ ht) hnd.1

theorem semundoClear_swept {u : Undos} (h : (u.list ++ u.free).Nodup) (semid : Nat)
    (semnum : Option Nat) : Swept semid semnum u.list u (semundoClear u semid semnum) :=
  clearFold_swept u.list u h (List.nodup_append.mp h).1 (fun _ hs => hs)

/-- `semundo_clear` is exact if and only if the entries of each structure stand so that
    the loop finds those to go. -/
theorem semundoClear_exact (u : Undos) (h : (u.list ++ u.free).Nodup) (semid : Nat)
    (semnum : Option Nat) : Cleared semid semnum u (semundoClear u semid semnum) ↔
      ∀ s ∈ u.list, Clears semid semnum (u.pool s).ents := by
  have hswept := semundoClear_swept h semid semnum
  constructor
  · intro hc s hs
    have hperm := hc.entries s hs
    rw [hswept.entries s hs] at hperm
    exact (clearLoop_exact _).mp hperm
  intro hc
  refine ⟨fun s hs => ?_, hswept.others, hswept.proc, fun s => ?_, hswept.free⟩
  · rw [hswept.entries s hs]
    exact (clearLoop_exact _).mpr (hc s hs)
  · rw [hswept.list s]
    exact ⟨fun hs => ⟨hs.1, hs.2 hs.1⟩, fun hs => ⟨hs.1, fun _ => hs.2⟩⟩

/-- Two processes have changed a semaphore of a set, and one of them the semaphore of another
    set as well. -/
def twoOwed : Undos where
  pool := fun s => if s = 0 then ⟨some 1, [⟨1, 0, 0, 1⟩, ⟨2, 3, 1, 1⟩]⟩ else ⟨some 2, [⟨3, 0, 0, 1⟩]⟩
  list := [1, 0]
  free := [2]

theorem semundoClear_exact_two : (twoOwed.list ++ twoOwed.free).Nodup ∧
    (Cleared 0 (some 0) twoOwed (semundoClear twoOwed 0 (some 0)) ↔
      ∀ s ∈ twoOwed.list, Clears 0 (some 0) (twoOwed.pool s).ents) :=
  ⟨by decide, semundoClear_exact twoOwed (by decide) 0 (some 0)⟩

/-- A process takes one off two semaphores of a set with `SEM_UNDO`. -/
def owedOps : List Op :=
  [.semget 0 2 true false, .semop ⟨1, 0, 1, [⟨0, 3, false, false⟩, ⟨1, 3, false, false⟩]⟩,
    .semop ⟨1, 0, 1, [⟨0, -1, true, false⟩, ⟨1, -1, true, false⟩]⟩]

-- The set is forgotten: the entry of the second semaphore comes to the place of the
-- first one's and is left there.
theorem removed_set_owed : ¬ ∀ (inf : Seminfo) (mem : Nat → Semaphore) (ops : List Op) (σ : State),
    runOps (step inf) (init inf mem) ops = some σ → ∀ semid semnum,
      Cleared semid semnum σ.undos (semundoClear σ.undos semid semnum) := by
  intro h
  have hval : (runOps (step defaults) (init defaults (fun _ => .zero)) owedOps).map (fun σ =>
      (decide (149 ∈ σ.undos.list), stays 0 none (σ.undos.pool 149).ents,
        ((semundoClear σ.undos 0 none).pool 149).ents.length)) = some (true, [], 1) := by
    decide
  rcases Option.map_eq_some_iff.mp hval with ⟨σ, hσ, heq⟩
  rw [Prod.mk.injEq, Prod.mk.injEq] at heq
  have hin := of_decide_eq_true heq.1
  have hperm := (h defaults (fun _ => .zero) owedOps σ hσ 0 none).entries 149 hin
  rw [heq.2.1] at hperm
  rw [hperm.eq_nil] at heq
  exact absurd heq.2.2 (by decide)

end FreeBSDKern.Sem
