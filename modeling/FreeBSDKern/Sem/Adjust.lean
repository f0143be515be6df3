import FreeBSDKern.Sem.Undo

/-!
# Entries of Undo Structures

What `semundo_adjust` and `semundo_clear` do to the entries of a structure and to the
structures of all processes. The order of the entries changes whenever one is taken out, so
everything is said up to a permutation, and of the sums over the entries of a semaphore
(`adjSum`). A semaphore has at most one entry in a structure and none is zero, so a
structure is empty exactly when all its sums are zero.

`Books` is what holds of the two lists of structures. It survives an adjustment only
if the structure that is adjusted is on `semu_list` (`Found`).

## Main definitions

* `adjSum`: The adjustment of a semaphore.
* `Changes`: What an adjustment does to entries in any order.
* `Good`: One entry for a semaphore, and none that is zero.
* `entsOf`: The entries of a process.
* `Books`: What holds of the undo structures.

## Theorems

* `adjustEnts_changes`: What an adjustment does to the entries.
* `Books.semundoAdjust`: An adjustment.
* `Books.semundoClear`: The entries of another set are forgotten.
-/

namespace FreeBSDKern.Sem

open Function

/-- The adjustment of a semaphore. -/
def adjSum (ents : List Undo) (id num : Nat) : Int :=
  (ents.map (fun e => if e.id = id ∧ e.num = num then e.adjval else 0)).sum

theorem adjSum_cons (e : Undo) (ents : List Undo) (id num : Nat) : adjSum (e :: ents) id num =
      (if e.id = id ∧ e.num = num then e.adjval else 0) + adjSum ents id num := by
  unfold adjSum
  rw [List.map_cons, List.sum_cons]

variable {ents ents' : List Undo} {id num seq p s semid : Nat} {inf : Seminfo} {a : Int}

theorem adjSum_perm (h : ents.Perm ents') (id num : Nat) :
    adjSum ents id num = adjSum ents' id num :=
  (h.map _).sum_eq

/-- One entry for a semaphore, and none that is zero. -/
structure Good (ents : List Undo) : Prop where
  once : (ents.map (fun e => (e.id, e.num))).Nodup
  ne : ∀ e ∈ ents, e.adjval ≠ 0

theorem Good.nil : Good [] := ⟨List.nodup_nil, fun _ h => absurd h List.not_mem_nil⟩

theorem Good.perm (h : Good ents) (hp : ents.Perm ents') : Good ents' :=
  ⟨((hp.map _).nodup_iff).mp h.once, fun e he => h.ne e (hp.mem_iff.mpr he)⟩

theorem good_cons {e : Undo} : Good (e :: ents) ↔
    (∀ d ∈ ents, ¬ (d.id = e.id ∧ d.num = e.num)) ∧ e.adjval ≠ 0 ∧ Good ents := by
  constructor
  · intro h
    have honce := h.once
    rw [List.map_cons, List.nodup_cons, List.mem_map] at honce
    refine ⟨fun d hd hk => honce.1 ⟨d, hd, by rw [hk.1, hk.2]⟩, h.ne e List.mem_cons_self,
      honce.2, fun d hd => h.ne d (List.mem_cons_of_mem _ hd)⟩
  rintro ⟨hk, hne, hg⟩
  refine ⟨?_, ?_⟩
  · rw [List.map_cons, List.nodup_cons, List.mem_map]
    refine ⟨?_, hg.once⟩
    rintro ⟨d, hd, heq⟩
    rw [Prod.mk.injEq] at heq
    exact hk d hd heq
  intro d hd
  rcases List.mem_cons.mp hd with rfl | hd
  · exact hne
  · exact hg.ne d hd

theorem adjSum_eq_zero (h : ∀ e ∈ ents, ¬ (e.id = id ∧ e.num = num)) : adjSum ents id num = 0 := by
  induction ents with
  | nil => rfl
  | cons e ents ih =>
    rw [adjSum_cons, if_neg (h e List.mem_cons_self), Int.zero_add]
    exact ih (fun d hd => h d (List.mem_cons_of_mem _ hd))

/-- A structure is empty exactly when all its sums are zero. -/
theorem Good.eq_nil_iff (h : Good ents) : ents = [] ↔ ∀ id num, adjSum ents id num = 0 := by
  constructor
  · rintro rfl id num
    rfl
  intro hzero
  cases ents with
  | nil => rfl
  | cons e ents =>
    rw [good_cons] at h
    have := hzero e.id e.num
    rw [adjSum_cons, if_pos ⟨rfl, rfl⟩, adjSum_eq_zero h.1, Int.add_zero] at this
    exact absurd this h.2.1

/-- Taking an entry out, up to the order. -/
theorem removeEnt_perm {i : Nat} (hi : i < ents.length) :
    (removeEnt ents i).Perm (ents.eraseIdx i) := by
  rcases List.eq_nil_or_concat ents with rfl | ⟨front, e, rfl⟩
  · exact absurd hi (Nat.not_lt_zero _)
  rw [List.concat_eq_append] at hi ⊢
  unfold removeEnt
  rw [List.getLast?_append, List.getLast?_singleton, Option.some_or]
  simp only
  rw [List.length_append, List.length_singleton] at hi
  by_cases hlast : i < front.length
  · rw [List.set_append_left _ _ hlast, List.dropLast_concat,
      List.eraseIdx_append_of_lt_length hlast]
    exact (List.set_perm_cons_eraseIdx hlast e).trans
      (List.perm_append_singleton e _).symm
  have heq : i = front.length := by omega
  subst heq
  rw [List.set_append_right _ _ le_rfl, Nat.sub_self, List.set_cons_zero,
    List.dropLast_concat, List.eraseIdx_append_of_length_le le_rfl, Nat.sub_self,
    List.eraseIdx_cons_zero, List.append_nil]

/-- The entry at an index, and the others. -/
theorem perm_getElem? {i : Nat} {e : Undo} (h : ents[i]? = some e) :
    i < ents.length ∧ ents.Perm (e :: ents.eraseIdx i) := by
  rcases List.getElem?_eq_some_iff.mp h with ⟨hi, rfl⟩
  exact ⟨hi, (List.getElem_cons_eraseIdx_perm hi).symm⟩

/-- An adjustment that can be remembered. -/
def Fits (inf : Seminfo) (a : Int) : Prop := -inf.semaem ≤ a ∧ a ≤ inf.semaem

/-- What an adjustment does: an entry goes, one changes, or there is a new one. -/
inductive Changes (inf : Seminfo) (id seq num : Nat) (a : Int) (ents ents' : List Undo) : Prop where
  | gone (e : Undo) (rest : List Undo) (hents : ents.Perm (e :: rest)) (hkey : e.id = id ∧ e.num = num)
      (hzero : a + e.adjval = 0) (hents' : ents'.Perm rest)
  | changed (e : Undo) (rest : List Undo) (hents : ents.Perm (e :: rest))
      (hkey : e.id = id ∧ e.num = num) (hne : a + e.adjval ≠ 0) (hfits : Fits inf (a + e.adjval))
      (hents' : ents'.Perm ({ e with adjval := a + e.adjval } :: rest))
  | created (hnone : ∀ e ∈ ents, ¬ (e.id = id ∧ e.num = num)) (hfits : Fits inf a)
      (hroom : ents.length ≠ inf.semume) (hents' : ents'.Perm (⟨a, num, id, seq⟩ :: ents))

theorem adjustEnts_changes (ha : a ≠ 0) (h : adjustEnts inf ents id seq num a = .ok ents') :
    Changes inf id seq num a ents ents' := by
  unfold adjustEnts at h
  split at h
  · rename_i i hfind
    rw [List.findIdx?_eq_some_iff_getElem] at hfind
    rcases hfind with ⟨hi, hkey, -⟩
    rw [decide_eq_true_iff] at hkey
    rw [List.getElem?_eq_getElem hi] at h
    simp only [if_neg ha] at h
    have hperm := (perm_getElem? (List.getElem?_eq_getElem hi)).2
    split at h
    case isTrue => cases h
    case isFalse hrange =>
    split at h
    case isTrue hzero =>
      rw [Except.ok.injEq] at h
      subst h
      exact .gone _ _ hperm hkey hzero (removeEnt_perm hi)
    case isFalse hzero =>
    rw [Except.ok.injEq] at h
    subst h
    exact .changed _ _ hperm hkey hzero ⟨by omega, by omega⟩ (List.set_perm_cons_eraseIdx hi _)
  rename_i hfind
  rw [List.findIdx?_eq_none_iff] at hfind
  rw [if_neg ha] at h
  split at h
  case isTrue => cases h
  case isFalse hrange =>
  split at h
  case isTrue hroom =>
    rw [Except.ok.injEq] at h
    subst h
    exact .created (fun e he => of_decide_eq_false (hfind e he)) ⟨by omega, by omega⟩ hroom
      (List.perm_append_singleton _ _)
  case isFalse => cases h

theorem adjustEnts_sum (ha : a ≠ 0) (h : adjustEnts inf ents id seq num a = .ok ents') (i n : Nat) :
    adjSum ents' i n = adjSum ents i n + if i = id ∧ n = num then a else 0 := by
  have hcond : ∀ x y : Nat, (x = i ∧ y = n) ↔ (i = x ∧ n = y) :=
    fun x y => ⟨fun hxy => ⟨hxy.1.symm, hxy.2.symm⟩, fun hxy => ⟨hxy.1.symm, hxy.2.symm⟩⟩
  rcases adjustEnts_changes ha h with ⟨e, rest, hp, ⟨rfl, rfl⟩, hsum, hp'⟩ |
    ⟨e, rest, hp, ⟨rfl, rfl⟩, -, -, hp'⟩ | ⟨-, -, -, hp'⟩
  · rw [adjSum_perm hp, adjSum_perm hp', adjSum_cons]
    simp only [hcond]
    split <;> omega
  · rw [adjSum_perm hp, adjSum_perm hp', adjSum_cons, adjSum_cons]
    simp only [hcond]
    split <;> omega
  rw [adjSum_perm hp', adjSum_cons]
  simp only [hcond]
  split <;> omega

theorem Good.adjustEnts (hg : Good ents) (ha : a ≠ 0)
    (h : adjustEnts inf ents id seq num a = .ok ents') : Good ents' := by
  rcases adjustEnts_changes ha h with ⟨e, rest, hp, -, -, hp'⟩ | ⟨e, rest, hp, -, hne, -, hp'⟩ |
    ⟨hnone, -, -, hp'⟩
  · exact (good_cons.mp (hg.perm hp)).2.2.perm hp'.symm
  · have hold := good_cons.mp (hg.perm hp)
    have hnew : Good ({ e with adjval := a + e.adjval } :: rest) :=
      good_cons.mpr ⟨hold.1, hne, hold.2.2⟩
    exact hnew.perm hp'.symm
  · exact (good_cons.mpr ⟨hnone, ha, hg⟩).perm hp'.symm

/-- The entries of a set have sequence numbers that are known. -/
def Tracked (id : Nat) (P : Nat → Prop) (ents : List Undo) : Prop :=
  ∀ e ∈ ents, e.id = id → P e.seq

theorem Tracked.adjustEnts {id' : Nat} {P : Nat → Prop} (ht : Tracked id' P ents)
    (hseq : id = id' → P seq) (ha : a ≠ 0) (h : adjustEnts inf ents id seq num a = .ok ents') :
    Tracked id' P ents' := by
  intro d hd hid
  rcases adjustEnts_changes ha h with ⟨e, rest, hp, -, -, hp'⟩ | ⟨e, rest, hp, -, -, -, hp'⟩ |
    ⟨-, -, -, hp'⟩
  · exact ht d (hp.mem_iff.mpr (List.mem_cons_of_mem _ (hp'.mem_iff.mp hd))) hid
  · rcases List.mem_cons.mp (hp'.mem_iff.mp hd) with rfl | hd
    · exact ht e (hp.mem_iff.mpr List.mem_cons_self) hid
    · exact ht d (hp.mem_iff.mpr (List.mem_cons_of_mem _ hd)) hid
  rcases List.mem_cons.mp (hp'.mem_iff.mp hd) with rfl | hd
  · exact hseq hid
  · exact ht d hd hid

/-- The entries of a process. -/
def entsOf (u : Undos) (p : Nat) : List Undo :=
  match undoOf u p with
  | none => []
  | some s => (u.pool s).ents

/-- What holds of the undo structures. `ex` has those that are on neither list. -/
structure Books (id : Nat) (P : Nat → Prop) (u : Undos) (ex : List Nat) : Prop where
  once : (u.list ++ u.free ++ ex).Nodup
  free : ∀ s ∈ u.free, (u.pool s).ents = []
  owned : ∀ s ∈ u.list, ∃ p, (u.pool s).proc = some p
  procs : u.list.Pairwise (fun s t => (u.pool s).proc ≠ (u.pool t).proc)
  good : ∀ s ∈ u.list, Good (u.pool s).ents
  tracked : ∀ s ∈ u.list, Tracked id P (u.pool s).ents

/-- A pointer at a structure that is in use, or none. -/
def Found (u : Undos) (p : Nat) (suptr : Option Nat) : Prop :=
  ∀ s ∈ suptr, s ∈ u.list ∧ (u.pool s).proc = some p

theorem undoOf_mem {u : Undos} (h : undoOf u p = some s) :
    s ∈ u.list ∧ (u.pool s).proc = some p := by
  unfold undoOf at h
  exact ⟨List.mem_of_find?_eq_some h, by simpa using List.find?_some h⟩

section Books

variable {id : Nat} {P : Nat → Prop} {u : Undos} {ex : List Nat}

section

variable (h : Books id P u ex)
include h

theorem Books.proc_ne {t : Nat} (hs : s ∈ u.list) (ht : t ∈ u.list)
    (hne : s ≠ t) : (u.pool s).proc ≠ (u.pool t).proc := by
  have : Std.Symm (fun s t => (u.pool s).proc ≠ (u.pool t).proc) := ⟨fun _ _ hst => hst.symm⟩
  exact h.procs.forall hs ht hne

/-- A process has one structure in use. -/
theorem Books.undoOf_eq (hs : s ∈ u.list) (hp : (u.pool s).proc = some p) :
    undoOf u p = some s := by
  cases hfind : undoOf u p with
  | none =>
    unfold undoOf at hfind
    rw [List.find?_eq_none] at hfind
    exact absurd (decide_eq_true hp) (hfind s hs)
  | some t =>
    rcases undoOf_mem hfind with ⟨ht, htp⟩
    by_cases hst : s = t
    · rw [hst]
    · exact absurd (hp.trans htp.symm) (h.proc_ne hs ht hst)

/-- The structure of a process depends on which structures in use are its own. -/
theorem Books.undoOf_congr {u' : Undos} {ex' : List Nat} (h' : Books id P u' ex')
    (hiff : ∀ s, s ∈ u'.list ∧ (u'.pool s).proc = some p ↔ s ∈ u.list ∧ (u.pool s).proc = some p) :
    undoOf u' p = undoOf u p := by
  cases hfind : undoOf u p with
  | some s =>
    rcases (hiff s).mpr (undoOf_mem hfind) with ⟨hs, hp⟩
    exact h'.undoOf_eq hs hp
  | none =>
    cases hfind' : undoOf u' p with
    | none => rfl
    | some s =>
      rcases (hiff s).mp (undoOf_mem hfind') with ⟨hs, hp⟩
      rw [h.undoOf_eq hs hp] at hfind
      cases hfind

theorem Books.entsOf_eq (hs : s ∈ u.list) (hp : (u.pool s).proc = some p) :
    entsOf u p = (u.pool s).ents := by
  unfold entsOf
  rw [h.undoOf_eq hs hp]

theorem Books.good_entsOf (p : Nat) : Good (entsOf u p) := by
  unfold entsOf
  cases hfind : undoOf u p with
  | none => exact Good.nil
  | some s => exact h.good s (undoOf_mem hfind).1

end

/-- The entries of a process that has no structure, or whose structure is as it was. -/
theorem entsOf_congr {u u' : Undos} (h : undoOf u' p = undoOf u p)
    (hpool : ∀ s, undoOf u p = some s → (u'.pool s).ents = (u.pool s).ents) :
    entsOf u' p = entsOf u p := by
  unfold entsOf
  rw [h]
  cases hfind : undoOf u p with
  | none => rfl
  | some s => exact hpool s hfind

theorem Books.notMem_free (h : Books id P u ex) (hs : s ∈ u.list) : s ∉ u.free := by
  intro hf
  have := (List.nodup_append.mp (List.nodup_append.mp h.once).1).2.2 s hs s hf
  exact this rfl

/-- New entries for a structure in use. -/
theorem Books.setEnts (h : Books id P u ex) (hs : s ∈ u.list) (hp : (u.pool s).proc = some p)
    (hg : Good ents) (ht : Tracked id P ents) :
    Books id P { u with pool := update u.pool s { u.pool s with ents := ents } } ex ∧
    entsOf { u with pool := update u.pool s { u.pool s with ents := ents } } p = ents ∧
    ∀ q, q ≠ p → entsOf { u with
      pool := update u.pool s { u.pool s with ents := ents } } q = entsOf u q := by
  have hproc : ∀ t, (update u.pool s { u.pool s with ents := ents } t).proc = (u.pool t).proc := by
    intro t
    by_cases hts : t = s
    · subst hts
      rw [update_self]
    · rw [update_of_ne hts]
  have hents : ∀ t, t ≠ s → (update u.pool s { u.pool s with ents := ents } t).ents =
      (u.pool t).ents := by
    intro t hts
    rw [update_of_ne hts]
  have hself : (update u.pool s { u.pool s with ents := ents } s).ents = ents := by
    rw [update_self]
  have hbooks : Books id P
      { u with pool := update u.pool s { u.pool s with ents := ents } } ex := by
    refine ⟨h.once, ?_, ?_, ?_, ?_, ?_⟩
    · intro t ht'
      rw [hents t (fun heq => h.notMem_free hs (heq ▸ ht'))]
      exact h.free t ht'
    · intro t ht'
      rw [hproc]
      exact h.owned t ht'
    · refine h.procs.imp ?_
      intro t t' htt
      rw [hproc, hproc]
      exact htt
    · intro t ht'
      by_cases hts : t = s
      · rw [hts, hself]
        exact hg
      · rw [hents t hts]
        exact h.good t ht'
    intro t ht'
    by_cases hts : t = s
    · rw [hts, hself]
      exact ht
    · rw [hents t hts]
      exact h.tracked t ht'
  refine ⟨hbooks, ?_, ?_⟩
  · rw [hbooks.entsOf_eq hs ((hproc s).trans hp)]
    exact hself
  intro q hq
  have hsame : undoOf { u with
      pool := update u.pool s { u.pool s with ents := ents } } q = undoOf u q := by
    unfold undoOf
    simp only [hproc]
  refine entsOf_congr hsame ?_
  intro t ht'
  refine hents t ?_
  rintro rfl
  rw [(undoOf_mem ht').2, Option.some.injEq] at hp
  exact hq hp

/-- A structure is taken off the list, and its process is left without entries. -/
theorem Books.entsOf_erase {u' : Undos} {ex' : List Nat} (h : Books id P u ex)
    (h' : Books id P u' ex') (hs : s ∈ u.list) (hp : (u.pool s).proc = some p)
    (hlist : u'.list = u.list.erase s) (hpool : u'.pool = u.pool) (q : Nat) :
    entsOf u' q = if q = p then [] else entsOf u q := by
  have hnd : u.list.Nodup := (List.nodup_append.mp (List.nodup_append.mp h.once).1).1
  split
  case isTrue hq =>
    subst hq
    -- The structure was the only one of its process.
    have hnone : undoOf u' q = none := by
      rw [Option.eq_none_iff_forall_not_mem]
      intro t ht
      rcases undoOf_mem ht with ⟨hin, htq⟩
      rw [hlist] at hin
      rw [hpool] at htq
      have hts := hnd.mem_erase_iff.mp hin
      exact h.proc_ne hts.2 hs hts.1 (htq.trans hp.symm)
    rw [entsOf, hnone]
  case isFalse hq =>
  refine entsOf_congr (h.undoOf_congr h' (fun t => ?_)) (fun _ _ => by rw [hpool])
  rw [hlist, hpool]
  refine and_congr_left (fun htq => List.mem_erase_of_ne ?_)
  rintro rfl
  rw [hp, Option.some.injEq] at htq
  exact hq htq.symm

/-- A structure in use goes to the free list once it is empty. -/
theorem Books.tryFree (h : Books id P u ex) (hs : s ∈ u.list) (hp : (u.pool s).proc = some p)
    (hnil : (u.pool s).ents = []) :
    Books id P (semuTryFree u s) ex ∧ ∀ q, entsOf (semuTryFree u s) q = entsOf u q := by
  have heq : semuTryFree u s = { u with list := u.list.erase s, free := s :: u.free } := by
    unfold semuTryFree
    rw [if_neg (not_not.mpr hnil), List.erase_of_not_mem (h.notMem_free hs)]
  rw [heq]
  have hperm : (u.list.erase s ++ (s :: u.free) ++ ex).Perm (u.list ++ u.free ++ ex) := by
    refine List.Perm.append_right ex ?_
    exact List.perm_middle.trans ((List.perm_cons_erase hs).symm.append_right u.free)
  have hbooks : Books id P { u with list := u.list.erase s, free := s :: u.free } ex := by
    refine ⟨hperm.nodup_iff.mpr h.once, ?_, ?_, ?_, ?_, ?_⟩
    · intro t ht
      rcases List.mem_cons.mp ht with rfl | ht
      · exact hnil
      · exact h.free t ht
    · intro t ht
      exact h.owned t (List.mem_of_mem_erase ht)
    · exact h.procs.sublist List.erase_sublist
    · intro t ht
      exact h.good t (List.mem_of_mem_erase ht)
    · intro t ht
      exact h.tracked t (List.mem_of_mem_erase ht)
  refine ⟨hbooks, fun q => ?_⟩
  rw [h.entsOf_erase hbooks hs hp rfl rfl]
  split
  case isTrue hq =>
    rw [hq, entsOf, h.undoOf_eq hs hp]
    exact hnil.symm
  case isFalse => rfl

/-- What an adjustment of a process does to the structures: it fails and leaves the entries,
    or it adjusts them. The pointer it leaves is at a structure in use, unless the
    last entry went. -/
structure Adjusted (inf : Seminfo) (id : Nat) (P : Nat → Prop) (u : Undos) (ex : List Nat)
    (p semid seq num : Nat) (a : Int) (r : Undos × Option Nat × Option Errno) : Prop where
  books : Books id P r.1 ex
  others : ∀ q, q ≠ p → entsOf r.1 q = entsOf u q
  result : (∃ e, r.2.2 = some e ∧ entsOf r.1 p = entsOf u p ∧ Found r.1 p r.2.1) ∨
    (∃ ents, r.2.2 = none ∧ adjustEnts inf (entsOf u p) semid seq num a = .ok ents ∧
      entsOf r.1 p = ents ∧ (ents ≠ [] → Found r.1 p r.2.1))

theorem Books.adjustIn (inf : Seminfo) (h : Books id P u ex) (hs : s ∈ u.list)
    (hp : (u.pool s).proc = some p) (ha : a ≠ 0) (hseq : semid = id → P seq) :
    Adjusted inf id P u ex p semid seq num a
      ((adjustIn inf u s semid seq num a).1, some s, (adjustIn inf u s semid seq num a).2) := by
  have hents := h.entsOf_eq hs hp
  unfold Sem.adjustIn
  cases hadj : adjustEnts inf (u.pool s).ents semid seq num a with
  | error e =>
    refine ⟨h, fun _ _ => rfl, Or.inl ⟨e, rfl, rfl, ?_⟩⟩
    intro t ht
    rw [Option.mem_some_iff] at ht
    exact ht ▸ ⟨hs, hp⟩
  | ok ents =>
    have hset := h.setEnts hs hp ((h.good s hs).adjustEnts ha hadj)
      ((h.tracked s hs).adjustEnts hseq ha hadj)
    have hp' : (update u.pool s { u.pool s with ents := ents } s).proc = some p := by
      rw [update_self]
      exact hp
    simp only
    split
    case isTrue hnil =>
      have hfree := hset.1.tryFree hs hp' (by simp only [update_self]; exact hnil.1)
      refine ⟨hfree.1, fun q hq => (hfree.2 q).trans (hset.2.2 q hq),
        Or.inr ⟨ents, rfl, ?_, (hfree.2 p).trans hset.2.1, fun hne => absurd hnil.1 hne⟩⟩
      rw [hents]
      exact hadj
    case isFalse =>
    refine ⟨hset.1, hset.2.2, Or.inr ⟨ents, rfl, ?_, hset.2.1, fun _ t ht => ?_⟩⟩
    · rw [hents]
      exact hadj
    · rw [Option.mem_some_iff] at ht
      exact ht ▸ ⟨hs, hp'⟩

/-- A new structure for a process that has none. -/
theorem Books.alloc (h : Books id P u ex) {rest : List Nat} (hfree : u.free = s :: rest)
    (hnone : undoOf u p = none) :
    Books id P { pool := update u.pool s ⟨some p, []⟩, list := s :: u.list, free := rest }
      ex ∧
    ∀ q, entsOf { pool := update u.pool s ⟨some p, []⟩, list := s :: u.list, free := rest } q =
      entsOf u q := by
  have honce := h.once
  rw [hfree] at honce
  have hperm : (s :: u.list ++ rest ++ ex).Perm (u.list ++ s :: rest ++ ex) :=
    List.Perm.append_right ex List.perm_middle.symm
  have hnd := hperm.nodup_iff.mpr honce
  rw [List.cons_append, List.cons_append, List.nodup_cons] at hnd
  have hs : s ∉ u.list ∧ s ∉ rest := by
    constructor
    · exact fun hin => hnd.1 (List.mem_append_left _ (List.mem_append_left _ hin))
    · exact fun hin => hnd.1 (List.mem_append_left _ (List.mem_append_right _ hin))
  have hother : ∀ t, t ≠ s → update u.pool s ⟨some p, []⟩ t = u.pool t :=
    fun t ht => update_of_ne ht _ _
  have hlist : ∀ t ∈ u.list, update u.pool s ⟨some p, []⟩ t = u.pool t :=
    fun t ht => hother t (fun heq => hs.1 (heq ▸ ht))
  have hbooks : Books id P
      { pool := update u.pool s ⟨some p, []⟩, list := s :: u.list, free := rest } ex := by
    refine ⟨hperm.nodup_iff.mpr honce, ?_, ?_, ?_, ?_, ?_⟩
    · intro t ht
      dsimp only
      rw [hother t (fun heq => hs.2 (heq ▸ ht))]
      exact h.free t (by rw [hfree]; exact List.mem_cons_of_mem _ ht)
    · intro t ht
      rcases List.mem_cons.mp ht with rfl | ht
      · exact ⟨p, by simp only [update_self]⟩
      · simp only [hlist t ht]
        exact h.owned t ht
    · rw [List.pairwise_cons]
      refine ⟨fun t ht => ?_, h.procs.imp_of_mem (fun ht ht' htt => ?_)⟩
      · dsimp only
        rw [update_self, hlist t ht]
        intro heq
        unfold undoOf at hnone
        rw [List.find?_eq_none] at hnone
        exact hnone t ht (decide_eq_true heq.symm)
      dsimp only
      rw [hlist _ ht, hlist _ ht']
      exact htt
    · intro t ht
      rcases List.mem_cons.mp ht with rfl | ht
      · simp only [update_self]
        exact Good.nil
      · simp only [hlist t ht]
        exact h.good t ht
    intro t ht
    rcases List.mem_cons.mp ht with rfl | ht
    · simp only [update_self]
      exact fun e he => absurd he List.not_mem_nil
    · simp only [hlist t ht]
      exact h.tracked t ht
  refine ⟨hbooks, fun q => ?_⟩
  by_cases hq : q = p
  · subst hq
    rw [hbooks.entsOf_eq List.mem_cons_self (by simp only [update_self])]
    unfold entsOf
    rw [hnone]
    simp only [update_self]
  have hfind := h.undoOf_congr hbooks (p := q) (fun t => ?_)
  · refine entsOf_congr hfind (fun t ht => ?_)
    simp only [hlist t (undoOf_mem ht).1]
  by_cases hts : t = s
  · subst hts
    simp only [update_self, Option.some.injEq]
    exact ⟨fun ht => absurd ht.2.symm hq, fun ht => absurd ht.1 hs.1⟩
  · simp only [hother t hts, List.mem_cons, hts, false_or]

theorem Books.semundoAdjust (inf : Seminfo) (h : Books id P u ex) {suptr : Option Nat}
    (hfound : Found u p suptr) (ha : a ≠ 0) (hseq : semid = id → P seq) :
    Adjusted inf id P u ex p semid seq num a (semundoAdjust inf u suptr p semid seq num a) := by
  unfold Sem.semundoAdjust
  cases suptr with
  | some s =>
    rcases hfound s rfl with ⟨hs, hp⟩
    exact h.adjustIn inf hs hp ha hseq
  | none =>
    simp only
    cases hfind : undoOf u p with
    | some s =>
      rcases undoOf_mem hfind with ⟨hs, hp⟩
      exact h.adjustIn inf hs hp ha hseq
    | none =>
      simp only [if_neg ha]
      cases hfree : u.free with
      | nil =>
        have halloc : semuAlloc u p = none := by
          unfold semuAlloc
          rw [hfree]
        simp only [halloc]
        exact ⟨h, fun _ _ => rfl, Or.inl ⟨.enospc, rfl, rfl, nofun⟩⟩
      | cons s rest =>
        have halloc : semuAlloc u p = some
            ({ pool := update u.pool s ⟨some p, []⟩, list := s :: u.list, free := rest }, s) := by
          unfold semuAlloc
          rw [hfree]
        simp only [halloc]
        rcases h.alloc hfree hfind with ⟨hbooks, hents⟩
        have hadj : Adjusted inf id P _ ex p semid seq num a _ :=
          hbooks.adjustIn inf List.mem_cons_self (by simp only [update_self]) ha hseq
        refine ⟨hadj.books, fun q hq => (hadj.others q hq).trans (hents q), ?_⟩
        have hresult := hadj.result
        rw [hents p] at hresult
        exact hresult

/-- The inner loop of `semundo_clear` takes entries of its set out and leaves the others. -/
theorem clearLoop_spec (semid : Nat) (semnum : Option Nat) : ∀ (fuel i : Nat) (ents : List Undo),
    Good ents → Good (clearLoop semid semnum fuel i ents) ∧
      (∀ e ∈ clearLoop semid semnum fuel i ents, e ∈ ents) ∧
      ∀ id n, id ≠ semid → adjSum (clearLoop semid semnum fuel i ents) id n = adjSum ents id n := by
  intro fuel
  induction fuel with
  | zero =>
    intro i ents hg
    exact ⟨hg, fun _ he => he, fun _ _ _ => rfl⟩
  | succ fuel ih =>
    intro i ents hg
    rw [clearLoop]
    split
    · exact ⟨hg, fun _ he => he, fun _ _ _ => rfl⟩
    rename_i e he
    rcases perm_getElem? he with ⟨hi, hperm⟩
    split
    case isTrue => exact ih (i + 1) ents hg
    case isFalse hid =>
    have hid : e.id = semid := not_not.mp hid
    split
    case isTrue =>
      -- The entry goes.
      have hrem := removeEnt_perm hi
      have hg' : Good (removeEnt ents i) :=
        (good_cons.mp (hg.perm hperm)).2.2.perm hrem.symm
      have hmem : ∀ d ∈ removeEnt ents i, d ∈ ents := fun d hd =>
        hperm.mem_iff.mpr (List.mem_cons_of_mem _ (hrem.mem_iff.mp hd))
      have hsum : ∀ id n, id ≠ semid → adjSum (removeEnt ents i) id n = adjSum ents id n := by
        intro id n hne
        rw [adjSum_perm hrem, adjSum_perm hperm, adjSum_cons,
          if_neg (fun hk => hne (hk.1.symm.trans hid)), Int.zero_add]
      rcases ih (i + 1) (removeEnt ents i) hg' with ⟨h1, h2, h3⟩
      have hrest : Good (clearLoop semid semnum fuel (i + 1) (removeEnt ents i)) ∧
          (∀ d ∈ clearLoop semid semnum fuel (i + 1) (removeEnt ents i), d ∈ ents) ∧
          ∀ id n, id ≠ semid → adjSum (clearLoop semid semnum fuel (i + 1)
            (removeEnt ents i)) id n = adjSum ents id n :=
        ⟨h1, fun d hd => hmem d (h2 d hd), fun id n hne => (h3 id n hne).trans (hsum id n hne)⟩
      simp only
      split
      case isTrue => exact hrest
      case isFalse =>
        split
        case isTrue => exact ⟨hg', hmem, hsum⟩
        case isFalse => exact hrest
    case isFalse =>
      split
      case isTrue => exact ⟨hg, fun _ he => he, fun _ _ _ => rfl⟩
      case isFalse => exact ih (i + 1) ents hg

/-- `semundo_clear` of another set at one structure. -/
theorem Books.clearIn (h : Books id P u ex) (semnum : Option Nat) (hs : s ∈ u.list)
    (hne : id ≠ semid) : Books id P (clearIn semid semnum u s) ex ∧
      (∀ t ∈ u.list, t ≠ s → t ∈ (clearIn semid semnum u s).list) ∧
      ∀ p n, adjSum (entsOf (clearIn semid semnum u s) p) id n = adjSum (entsOf u p) id n := by
  rcases h.owned s hs with ⟨p, hp⟩
  rcases clearLoop_spec semid semnum (u.pool s).ents.length 0 (u.pool s).ents (h.good s hs) with
    ⟨hgood, hmem, hsum⟩
  have hset := h.setEnts hs hp hgood (fun e he hid => h.tracked s hs e (hmem e he) hid)
  have hsums : ∀ q n, adjSum (entsOf { u with pool := update u.pool s { u.pool s with
      ents := clearLoop semid semnum (u.pool s).ents.length 0 (u.pool s).ents } } q) id n =
      adjSum (entsOf u q) id n := by
    intro q n
    by_cases hq : q = p
    · subst hq
      rw [hset.2.1, h.entsOf_eq hs hp]
      exact hsum id n hne
    · rw [hset.2.2 q hq]
  unfold Sem.clearIn
  simp only
  split
  case isTrue hnil =>
    have hfree := hset.1.tryFree (s := s) (p := p) hs (by simp only [update_self, hp])
      (by simp only [update_self]; exact hnil.1)
    refine ⟨hfree.1, fun t ht hts => ?_, fun q n => ?_⟩
    · unfold semuTryFree
      rw [if_neg (by simp only [update_self, not_not]; exact hnil.1)]
      exact (List.mem_erase_of_ne hts).mpr ht
    · rw [hfree.2 q]
      exact hsums q n
  case isFalse => exact ⟨hset.1, fun t ht _ => ht, hsums⟩

/-- `semundo_clear` of another set. -/
theorem Books.semundoClear (h : Books id P u ex) (semnum : Option Nat) (hne : id ≠ semid) :
    Books id P (semundoClear u semid semnum) ex ∧
      ∀ p n, adjSum (entsOf (semundoClear u semid semnum) p) id n = adjSum (entsOf u p) id n := by
  have hloop : ∀ (l : List Nat) (v : Undos), Books id P v ex → l.Nodup → (∀ s ∈ l, s ∈ v.list) →
      Books id P (l.foldl (Sem.clearIn semid semnum) v) ex ∧
      ∀ p n, adjSum (entsOf (l.foldl (Sem.clearIn semid semnum) v) p) id n =
        adjSum (entsOf v p) id n := by
    intro l
    induction l with
    | nil =>
      intro v hv _ _
      exact ⟨hv, fun _ _ => rfl⟩
    | cons s l ih =>
      intro v hv hnd hl
      rw [List.nodup_cons] at hnd
      rcases hv.clearIn semnum (hl s List.mem_cons_self) hne with ⟨hb, hlist, hsum⟩
      have hrest := ih (Sem.clearIn semid semnum v s) hb hnd.2 (fun t ht =>
        hlist t (hl t (List.mem_cons_of_mem _ ht)) (fun heq => hnd.1 (heq ▸ ht)))
      rw [List.foldl_cons]
      exact ⟨hrest.1, fun p n => (hrest.2 p n).trans (hsum p n)⟩
  have hnd : u.list.Nodup := (List.nodup_append.mp (List.nodup_append.mp h.once).1).1
  exact hloop u.list u h hnd (fun _ hs => hs)

end Books

end FreeBSDKern.Sem
