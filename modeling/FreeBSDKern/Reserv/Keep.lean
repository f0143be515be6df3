import FreeBSDKern.Reserv.Break

/-!
# The Invariant of the Reservations

`used` says which pages are in use, as the callers see it: handed out by the
reservation code or taken from the allocator directly, and not given back. The
population map of an active reservation has to agree with it, and the other three
records of the population with the map. `RvOk` is what holds of one reservation,
and the operations are shown one reservation at a time: what they do to the one
they touch, and that the others keep everything `RvOk` reads.

## Main definitions

* `RvOk`: A reservation is sound.
* `Ok`: All of them are, and nothing is both free and in use.
* `Untouched`: Two states agree on a reservation.

## Theorems

* `Ok.populate`, `Ok.populateRange`, `Ok.depopulate`: One page more or less.
* `Ok.newReserv`: A new reservation.
* `Ok.vmReservBreak`: Dissolving one.
-/

namespace FreeBSDKern.Reserv

open Lib Function

/-- One reservation: its count, flag, place in the queue and page size index
    follow from its map, and its map from the pages in use. -/
structure RvOk (s : State) (used : Nat → Bool) (r : Nat) : Prop where
  len : (s.rv r).popmap.length = 8
  count : (s.rv r).popcnt = WordMap.population (s.rv r).popmap 0 512
  flag : (s.rv r).inpartpopq = true ↔ r ∈ s.partpop
  queue : r ∈ s.partpop ↔ (s.rv r).object ≠ none ∧ 0 < (s.rv r).popcnt ∧ (s.rv r).popcnt < 512
  psind : s.psind (r * 512) = if (s.rv r).object ≠ none ∧ (s.rv r).popcnt = 512 then 1 else 0
  idle : (s.rv r).object = none → (s.rv r).popcnt = 0
  lists : ∀ o, r ∈ s.rvq o ↔ (s.rv r).object = some o
  pages : (s.rv r).object ≠ none → ∀ i, i < 512 →
    s.free (r * 512 + i) = false ∧ WordMap.bit (s.rv r).popmap i = used (r * 512 + i)

structure Ok (s : State) (used : Nat → Bool) : Prop where
  each : ∀ r, RvOk s used r
  partNodup : s.partpop.Nodup
  rvqNodup : ∀ o, (s.rvq o).Nodup
  apart : ∀ p, s.free p = true → used p = false

/-- Two states agree on a reservation. -/
structure Untouched (s s' : State) (u u' : Nat → Bool) (r : Nat) : Prop where
  rv : s'.rv r = s.rv r
  queue : r ∈ s'.partpop ↔ r ∈ s.partpop
  psind : s'.psind (r * 512) = s.psind (r * 512)
  lists : ∀ o, r ∈ s'.rvq o ↔ r ∈ s.rvq o
  pages : ∀ i, i < 512 →
    s'.free (r * 512 + i) = s.free (r * 512 + i) ∧ u' (r * 512 + i) = u (r * 512 + i)

theorem RvOk.untouched {s s' : State} {u u' : Nat → Bool} {r : Nat} (h : RvOk s u r)
    (hun : Untouched s s' u u' r) : RvOk s' u' r := by
  refine ⟨?_, ?_, ?_, ?_, ?_, ?_, fun o => ?_, ?_⟩
  · rw [hun.rv]
    exact h.len
  · rw [hun.rv]
    exact h.count
  · rw [hun.rv, hun.queue]
    exact h.flag
  · rw [hun.rv, hun.queue]
    exact h.queue
  · rw [hun.rv, hun.psind]
    exact h.psind
  · rw [hun.rv]
    exact h.idle
  · rw [hun.rv, hun.lists]
    exact h.lists o
  rw [hun.rv]
  intro hobj i hi
  rw [(hun.pages i hi).1, (hun.pages i hi).2]
  exact h.pages hobj i hi

theorem physFree_eq_true (free : Nat → Bool) (m n p : Nat) :
    physFree free m n p = true ↔ free p = true ∨ m ≤ p ∧ p < m + n := by
  rw [physFree, Bool.or_eq_true, Bool.and_eq_true, decide_eq_true_eq, decide_eq_true_eq]

theorem physFree_outside (free : Nat → Bool) (m n p : Nat) (h : ¬ (m ≤ p ∧ p < m + n)) :
    physFree free m n p = free p := by
  rw [Bool.eq_iff_iff, physFree_eq_true]
  exact or_iff_left h

variable {s : State} {u : Nat → Bool} {r : Nat}

/-- A sound count, when a page of the reservation is free. -/
theorem RvOk.count_lt (h : RvOk s u r) (i : Nat) (hi : i < 512)
    (hclear : WordMap.bit (s.rv r).popmap i = false) : (s.rv r).popcnt < 512 := by
  have := WordMap.population_lt (s.rv r).popmap 512 i hi hclear
  rw [h.count]
  omega

theorem RvOk.count_nonneg (h : RvOk s u r) : 0 ≤ (s.rv r).popcnt := by
  rw [h.count]
  exact Int.natCast_nonneg _

theorem RvOk.count_le (h : RvOk s u r) : (s.rv r).popcnt ≤ 512 := by
  have := WordMap.population_le (s.rv r).popmap 0 512
  rw [h.count]
  omega

/-- What a list has besides one reservation stays. -/
structure Others (r : Nat) (l l' : List Nat) : Prop where
  nodup : l'.Nodup
  mem : ∀ r', r' ≠ r → (r' ∈ l' ↔ r' ∈ l)

theorem Others.refl {l : List Nat} (hl : l.Nodup) : Others r l l := ⟨hl, fun _ _ => Iff.rfl⟩

theorem Others.erase {l : List Nat} (hl : l.Nodup) : Others r l (l.erase r) :=
  ⟨hl.erase r, fun _ hne => hl.mem_erase_iff.trans (and_iff_right hne)⟩

theorem Others.requeue {l : List Nat} (hl : l.Nodup) : Others r l (l.erase r ++ [r]) where
  nodup := List.nodup_append.mpr ⟨hl.erase r, List.nodup_singleton r, fun a ha b hb heq =>
    hl.not_mem_erase (List.mem_singleton.mp hb ▸ heq ▸ ha)⟩
  mem := fun r' hne => by
    rw [List.mem_append, (Others.erase hl).mem r' hne, List.mem_singleton]
    exact or_iff_left hne

/-- A step that only changes one reservation. -/
theorem Ok.change {s' : State} {u' : Nat → Bool} (h : Ok s u) (hself : RvOk s' u' r)
    (hrv : ∀ r', r' ≠ r → s'.rv r' = s.rv r') (hpart : Others r s.partpop s'.partpop)
    (hpsind : ∀ r', r' ≠ r → s'.psind (r' * 512) = s.psind (r' * 512))
    (hrvq : ∀ o, Others r (s.rvq o) (s'.rvq o))
    (hpages : ∀ p, ¬ (r * 512 ≤ p ∧ p < r * 512 + 512) → s'.free p = s.free p ∧ u' p = u p)
    (hapart : (s'.rv r).object = none → ∀ p, r * 512 ≤ p → p < r * 512 + 512 →
      s'.free p = true → u' p = false) : Ok s' u' := by
  refine ⟨fun r' => ?_, hpart.nodup, fun o => (hrvq o).nodup, fun p hp => ?_⟩
  · by_cases hne : r' = r
    · rw [hne]
      exact hself
    · exact (h.each r').untouched ⟨hrv r' hne, hpart.mem r' hne, hpsind r' hne,
        fun o => (hrvq o).mem r' hne, fun i hi => hpages _ (by omega)⟩
  by_cases hin : r * 512 ≤ p ∧ p < r * 512 + 512
  · by_cases hobj : (s'.rv r).object = none
    · exact hapart hobj p hin.1 hin.2 hp
    have := (hself.pages hobj (p - r * 512) (by omega)).1
    rw [Nat.add_sub_cancel' hin.1, hp] at this
    cases this
  rw [(hpages p hin).1] at hp
  rw [(hpages p hin).2]
  exact h.apart p hp

/-- The reservations of the objects, when one is dissolved. -/
theorem Ok.unlist (h : Ok s u) (r o : Nat) :
    Others r (s.rvq o) (if (s.rv r).object = some o then (s.rvq o).erase r else s.rvq o) ∧
      r ∉ if (s.rv r).object = some o then (s.rvq o).erase r else s.rvq o := by
  split
  case isTrue => exact ⟨.erase (h.rvqNodup o), (h.rvqNodup o).not_mem_erase⟩
  case isFalse hno => exact ⟨.refl (h.rvqNodup o), fun hmem => hno (((h.each r).lists o).mp hmem)⟩

/-- A reservation of no object. -/
theorem rvOk_idle (hobj : (s.rv r).object = none) (hlen : (s.rv r).popmap.length = 8)
    (hcnt : (s.rv r).popcnt = 0) (hpop : WordMap.population (s.rv r).popmap 0 512 = 0)
    (hflag : (s.rv r).inpartpopq = false) (hpart : r ∉ s.partpop) (hps : s.psind (r * 512) = 0)
    (hlists : ∀ o, r ∉ s.rvq o) : RvOk s u r where
  len := hlen
  count := by rw [hcnt, hpop]; rfl
  flag := by simp [hflag, hpart]
  queue := by simp [hpart, hobj]
  psind := by simp [hps, hobj]
  idle := fun _ => hcnt
  lists := fun o => by simp [hlists o, hobj]
  pages := fun hne => absurd hobj hne

/-- What is left of the queue when a reservation is taken off it, or was not on
    it. -/
theorem Ok.dequeued (h : Ok s u) (r : Nat) :
    (if (s.rv r).inpartpopq then s.partpop.erase r else s.partpop) = s.partpop.erase r := by
  split
  · rfl
  case isFalse hno =>
    rw [List.erase_of_not_mem]
    exact fun hmem => hno ((h.each r).flag.mpr hmem)

/-- Taking a page of an active reservation into use. -/
theorem Ok.populate (h : Ok s u) (r i : Nat) (hobj : (s.rv r).object ≠ none) (hi : i < 512)
    (hfree : u (r * 512 + i) = false) :
    ∃ s', populate s r i = some s' ∧ Ok s' (update u (r * 512 + i) true) ∧
      (∀ r', r' ≠ r → s'.rv r' = s.rv r') ∧ (s'.rv r).object = (s.rv r).object ∧
      (s'.rv r).popcnt = (s.rv r).popcnt + 1 ∧ s'.free = s.free ∧ s'.rvq = s.rvq := by
  have hr := h.each r
  have hclear : WordMap.bit (s.rv r).popmap i = false := (hr.pages hobj i hi).2.trans hfree
  have hlt := hr.count_lt i hi hclear
  have hnn := hr.count_nonneg
  have hslot : i / 64 < (s.rv r).popmap.length := by
    rw [hr.len]
    omega
  have hps : s.psind (r * 512) = 0 := by
    rw [hr.psind, if_neg (by omega)]
  have hpop : (WordMap.population (WordMap.setBit (s.rv r).popmap i) 0 512 : Int) =
      (s.rv r).popcnt + 1 := by
    rw [WordMap.population_setBit _ 512 i (by omega) hi hslot hclear, hr.count]
    rfl
  have hbit := fun j => WordMap.bit_setBit (s.rv r).popmap i j (by omega) hslot
  have hpages : ∀ j, j < 512 → s.free (r * 512 + j) = false ∧
      WordMap.bit (WordMap.setBit (s.rv r).popmap i) j =
        update u (r * 512 + i) true (r * 512 + j) := by
    intro j hj
    refine ⟨(hr.pages hobj j hj).1, ?_⟩
    rw [hbit j]
    by_cases hji : j = i
    · subst hji
      simp
    · rw [update_of_ne (by omega), decide_eq_false hji, Bool.false_or]
      exact (hr.pages hobj j hj).2
  have hothers : ∀ p, ¬ (r * 512 ≤ p ∧ p < r * 512 + 512) →
      s.free p = s.free p ∧ update u (r * 512 + i) true p = u p :=
    fun p hp => ⟨rfl, update_of_ne (by omega) _ _⟩
  have hguard : ¬ ((s.rv r).object = none ∨ popmapIsSet (s.rv r).popmap i = true ∨
      (s.rv r).popcnt ≥ npages0 ∨ s.psind (r * npages0) ≠ 0) := by
    rw [popmapIsSet, hclear, npages0, hps]
    simp only [hobj, false_or, Bool.false_eq_true, ne_eq, not_true_eq_false, or_false]
    omega
  rw [Reserv.populate]
  dsimp only
  rw [if_neg hguard, h.dequeued r]
  by_cases hpart : (s.rv r).popcnt + 1 < npages0
  · rw [if_pos hpart]
    rw [npages0] at hpart
    refine ⟨_, rfl, h.change (r := r) ?_ (fun r' hne => update_of_ne hne _ _)
      (.requeue h.partNodup) (fun _ _ => rfl) (fun o => .refl (h.rvqNodup o)) hothers
      (fun he => ?_), fun r' hne => update_of_ne hne _ _, ?_, ?_, rfl, rfl⟩
    · refine ⟨?_, ?_, ?_, ?_, ?_, ?_, fun o => ?_, fun _ j hj => ?_⟩
      all_goals simp only [State.setRv, update_self]
      · rw [WordMap.length_setBit]
        exact hr.len
      · exact hpop.symm
      · simp
      · simp only [List.mem_append, List.mem_singleton, or_true, true_iff]
        exact ⟨hobj, by omega, hpart⟩
      · rw [hps, if_neg (by omega)]
      · exact fun he => absurd he hobj
      · exact hr.lists o
      · exact hpages j hj
    all_goals simp only [State.setRv, update_self] at *
    exact absurd he hobj
  rw [if_neg hpart]
  rw [npages0] at hpart
  refine ⟨_, rfl, h.change (r := r) ?_ (fun r' hne => update_of_ne hne _ _)
    (.erase h.partNodup) (fun r' hne => ?_) (fun o => .refl (h.rvqNodup o)) hothers
    (fun he => ?_), fun r' hne => update_of_ne hne _ _, ?_, ?_, rfl, rfl⟩
  · have hgone : r ∉ s.partpop.erase r := h.partNodup.not_mem_erase
    refine ⟨?_, ?_, ?_, ?_, ?_, ?_, fun o => ?_, fun _ j hj => ?_⟩
    all_goals simp only [State.setRv, update_self, npages0]
    · rw [WordMap.length_setBit]
      exact hr.len
    · exact hpop.symm
    · simp [hgone]
    · simp only [hgone, false_iff, not_and, not_lt]
      omega
    · rw [if_pos ⟨hobj, by omega⟩]
    · exact fun he => absurd he hobj
    · exact hr.lists o
    · exact hpages j hj
  · simp only [npages0]
    rw [update_of_ne (by omega)]
  all_goals simp only [State.setRv, update_self] at *
  exact absurd he hobj

/-- The pages in use with a run of pages added. -/
def useRun (u : Nat → Bool) (m n : Nat) : Nat → Bool :=
  fun p => u p || (decide (m ≤ p) && decide (p < m + n))

theorem useRun_zero (u : Nat → Bool) (m : Nat) : useRun u m 0 = u := by
  ext p
  simp only [useRun, Nat.add_zero]
  by_cases h : m ≤ p
  · simp [show ¬ p < m by omega]
  · simp [h]

theorem useRun_succ (u : Nat → Bool) (m n : Nat) :
    useRun u m (n + 1) = update (useRun u m n) (m + n) true := by
  ext p
  by_cases h : p = m + n
  · subst h
    simp [useRun]
  rw [update_of_ne h]
  have : (p < m + (n + 1)) = (p < m + n) := propext (by omega)
  simp only [useRun, this]

/-- Populating a run of free pages of a reservation. -/
theorem Ok.populateRange (h : Ok s u) (r i : Nat) (hobj : (s.rv r).object ≠ none) (n : Nat)
    (hn : i + n ≤ 512) (hfree : ∀ j, j < n → u (r * 512 + (i + j)) = false) :
    ∃ s', populateRange s r i n = some s' ∧ Ok s' (useRun u (r * 512 + i) n) ∧
      (∀ r', r' ≠ r → s'.rv r' = s.rv r') ∧ (s'.rv r).object = (s.rv r).object ∧
      (s'.rv r).popcnt = (s.rv r).popcnt + n ∧ s'.free = s.free ∧ s'.rvq = s.rvq := by
  induction n with
  | zero =>
    refine ⟨s, rfl, by rw [useRun_zero]; exact h, fun r' _ => rfl, rfl, by simp, rfl, rfl⟩
  | succ n ih =>
    rcases ih (by omega) (fun j hj => hfree j (by omega)) with
      ⟨s₁, hrun, hok, hothers, hobj₁, hcnt, hfr, hrvq⟩
    have hlast : useRun u (r * 512 + i) n (r * 512 + (i + n)) = false := by
      rw [useRun, hfree n (by omega)]
      simp only [Bool.false_or, Bool.and_eq_false_iff, decide_eq_false_iff_not]
      omega
    rcases hok.populate r (i + n) (by rw [hobj₁]; exact hobj) (by omega) hlast with
      ⟨s₂, hpop, hok₂, hothers₂, hobj₂, hcnt₂, hfr₂, hrvq₂⟩
    refine ⟨s₂, by rw [Reserv.populateRange, hrun]; exact hpop, ?_, fun r' hne =>
      (hothers₂ r' hne).trans (hothers r' hne), hobj₂.trans hobj₁, ?_, hfr₂.trans hfr,
      hrvq₂.trans hrvq⟩
    · rw [useRun_succ, Nat.add_assoc]
      exact hok₂
    rw [hcnt₂, hcnt]
    push_cast
    omega

/-- A map without population has only empty words. -/
theorem popmap_empty {map : List (BitVec 64)} (hlen : map.length = 8)
    (hpop : WordMap.population map 0 512 = 0) : map = List.replicate npopmap 0#64 := by
  refine List.eq_replicate_iff.mpr ⟨hlen, fun w hw => ?_⟩
  rcases List.getElem_of_mem hw with ⟨i, hi, rfl⟩
  rw [hlen] at hi
  refine BitVec.eq_of_getLsbD_eq (fun k hk => ?_)
  have hword : WordMap.word map i = map[i] := by
    rw [WordMap.word, List.getD_eq_getElem?_getD, List.getElem?_eq_getElem, Option.getD_some]
  rw [← hword, word_bits _ _ _ hk, BitVec.getLsbD_zero]
  exact (WordMap.population_eq_zero map 0 512).mp hpop _ zero_le (by omega)

theorem population_empty : WordMap.population (List.replicate npopmap 0#64) 0 512 = 0 := by
  refine (WordMap.population_eq_zero _ 0 512).mpr (fun i _ _ => ?_)
  rw [WordMap.bit, WordMap.word, List.getD_eq_getElem?_getD, List.getElem?_replicate]
  split
  all_goals exact BitVec.getLsbD_zero

theorem RvOk.words_zero (h : RvOk s u r) (hcnt : (s.rv r).popcnt = 0) :
    (s.rv r).popmap.any (fun w => w ≠ 0#64) = false := by
  have hpop : WordMap.population (s.rv r).popmap 0 512 = 0 := by
    have := h.count
    omega
  rw [popmap_empty h.len hpop]
  rfl

/-- A superpage whose pages are neither free nor in use becomes a reservation of
    an object, with nothing populated yet. -/
theorem Ok.newReserv (h : Ok s u) (object : Object) (first : BitVec 64)
    (hobj : (s.rv r).object = none)
    (hfree : ∀ i, i < 512 → s.free (r * 512 + i) = false ∧ u (r * 512 + i) = false) :
    ∃ s', newReserv s object r first = some s' ∧ Ok s' u ∧ (∀ r', r' ≠ r → s'.rv r' = s.rv r') ∧
      (s'.rv r).object = some object.id ∧ (s'.rv r).popcnt = 0 ∧ s'.free = s.free ∧
      (∀ o, o ≠ object.id → s'.rvq o = s.rvq o) := by
  have hr := h.each r
  have hcnt := hr.idle hobj
  have hout : r ∉ s.partpop := fun hmem => (hr.queue.mp hmem).1 hobj
  have hflag : (s.rv r).inpartpopq = false := by
    cases hf : (s.rv r).inpartpopq with
    | false => rfl
    | true => exact absurd (hr.flag.mp hf) hout
  have hnone : ∀ o, r ∉ s.rvq o := by
    intro o hmem
    have := (hr.lists o).mp hmem
    rw [hobj] at this
    cases this
  have hclear := (WordMap.population_eq_zero (s.rv r).popmap 0 512).mp (by
    have := hr.count
    omega)
  rw [Reserv.newReserv]
  dsimp only
  rw [if_neg]
  · refine ⟨_, rfl, h.change (r := r) ?_ (fun r' hne => update_of_ne hne _ _)
      (.refl h.partNodup) (fun _ _ => rfl) (fun o => ?_) (fun _ _ => ⟨rfl, rfl⟩)
      (fun _ p hlo hhi _ => ?_), fun r' hne => update_of_ne hne _ _, ?_, ?_, rfl,
      fun o ho => if_neg ho⟩
    · refine ⟨?_, ?_, ?_, ?_, ?_, ?_, fun o => ?_, fun _ i hi => ?_⟩
      all_goals simp only [State.setRv, update_self]
      · exact hr.len
      · exact hr.count
      · exact hr.flag
      · simp only [hout, hcnt, false_iff, not_and, not_lt]
        omega
      · rw [hr.psind, if_neg (by rw [hcnt]; omega), if_neg (by rw [hcnt]; omega)]
      · exact fun he => nomatch he
      · by_cases ho : o = object.id
        · simp [ho]
        rw [if_neg ho]
        constructor
        · exact fun hmem => absurd hmem (hnone o)
        · exact fun he => absurd (Option.some.inj he).symm ho
      · exact ⟨(hfree i hi).1, (hclear i zero_le (by omega)).trans (hfree i hi).2.symm⟩
    · dsimp only
      split
      · exact ⟨List.nodup_cons.mpr ⟨hnone o, h.rvqNodup o⟩, fun r' hne => by
          rw [List.mem_cons]
          exact or_iff_right hne⟩
      · exact .refl (h.rvqNodup o)
    · rw [← Nat.add_sub_cancel' hlo]
      exact (hfree _ (by omega)).2
    · simp only [State.setRv, update_self]
    · simp only [State.setRv, update_self]
      exact hcnt
  · simp only [hobj, hcnt, hflag, hr.words_zero hcnt]
    simp

/-- Taking a page back, and with the last one the whole superpage. -/
theorem Ok.depopulate (h : Ok s u) (r i : Nat) (hobj : (s.rv r).object ≠ none) (hi : i < 512)
    (hused : u (r * 512 + i) = true) :
    ∃ s', depopulate s r i = some s' ∧ Ok s' (update u (r * 512 + i) false) ∧
      (∀ r', r' ≠ r → s'.rv r' = s.rv r') ∧ ((s'.rv r).object = none ∨ 0 < (s'.rv r).popcnt) := by
  have hr := h.each r
  have hset : WordMap.bit (s.rv r).popmap i = true := (hr.pages hobj i hi).2.trans hused
  have hslot : i / 64 < (s.rv r).popmap.length := by
    rw [hr.len]
    omega
  have hpop : (WordMap.population (WordMap.clearBit (s.rv r).popmap i) 0 512 : Int) =
      (s.rv r).popcnt - 1 := by
    have := WordMap.population_clearBit _ 512 i (by omega) hi hslot hset
    rw [hr.count]
    omega
  have hpos : 0 < (s.rv r).popcnt := by
    omega
  have hle := hr.count_le
  have hbit := fun j => WordMap.bit_clearBit (s.rv r).popmap i j (by omega) hslot
  have hpages : ∀ j, j < 512 → WordMap.bit (WordMap.clearBit (s.rv r).popmap i) j =
      update u (r * 512 + i) false (r * 512 + j) := by
    intro j hj
    rw [hbit j]
    by_cases hji : j = i
    · subst hji
      simp
    · rw [update_of_ne (by omega), decide_eq_false hji]
      exact (hr.pages hobj j hj).2
  have hothers : ∀ p, ¬ (r * 512 ≤ p ∧ p < r * 512 + 512) →
      update u (r * 512 + i) false p = u p := fun p hp => update_of_ne (by omega) _ _
  have hguard : ¬ ((s.rv r).object = none ∨ popmapIsSet (s.rv r).popmap i = false ∨
      (s.rv r).popcnt ≤ 0) := by
    rw [popmapIsSet, hset]
    simp only [hobj, false_or, Bool.true_eq_false]
    omega
  have hguard₂ : ¬ ((s.rv r).inpartpopq = false ∧ s.psind (r * npages0) ≠ 1) := by
    rintro ⟨hflag, hps⟩
    have hout : r ∉ s.partpop := fun hmem => by
      rw [hr.flag.mpr hmem] at hflag
      cases hflag
    rw [hr.queue] at hout
    rw [npages0, hr.psind, if_pos ⟨hobj, by
      by_contra hne
      exact hout ⟨hobj, hpos, by omega⟩⟩] at hps
    exact hps rfl
  rw [Reserv.depopulate]
  dsimp only
  rw [if_neg hguard, if_neg hguard₂]
  -- Off the queue, or demoted: either way the index is zero and the queue lacks it.
  have hmid : ∃ s₁, (if (s.rv r).inpartpopq then { s with partpop := s.partpop.erase r }
      else { s with psind := update s.psind (r * npages0) 0 }) = s₁ ∧ s₁.rv = s.rv ∧
      s₁.rvq = s.rvq ∧ s₁.free = s.free ∧ s₁.partpop = s.partpop.erase r ∧
      s₁.psind (r * 512) = 0 ∧ ∀ r', r' ≠ r → s₁.psind (r' * 512) = s.psind (r' * 512) := by
    refine ⟨_, rfl, ?_⟩
    cases hflag : (s.rv r).inpartpopq with
    | true =>
      have hmem := hr.queue.mp (hr.flag.mp hflag)
      exact ⟨rfl, rfl, rfl, rfl, by
        change s.psind (r * 512) = 0
        rw [hr.psind, if_neg (by omega)], fun r' _ => rfl⟩
    | false =>
      have hout : r ∉ s.partpop := fun hmem => by
        rw [hr.flag.mpr hmem] at hflag
        cases hflag
      refine ⟨rfl, rfl, rfl, (List.erase_of_not_mem hout).symm, ?_, fun r' hne => ?_⟩
      · simp only [npages0, Bool.false_eq_true, if_false]
        exact update_self ..
      · simp only [npages0, Bool.false_eq_true, if_false]
        rw [update_of_ne (by omega)]
  rcases hmid with ⟨s₁, hs₁, hrv, hrvq, hfr, hpart, hps, hpso⟩
  rw [hs₁]
  have hgone : r ∉ s.partpop.erase r := h.partNodup.not_mem_erase
  by_cases hlast : (s.rv r).popcnt - 1 = 0
  · rw [if_pos hlast]
    have hzero : WordMap.population (WordMap.clearBit (s.rv r).popmap i) 0 512 = 0 := by omega
    have hnone : ∀ p, r * 512 ≤ p → p < r * 512 + 512 → update u (r * 512 + i) false p = false := by
      intro p hlo hhi
      have := hpages (p - r * 512) (by omega)
      rw [(WordMap.population_eq_zero _ 0 512).mp hzero _ zero_le (by omega),
        Nat.add_sub_cancel' hlo] at this
      exact this.symm
    refine ⟨_, rfl, h.change (r := r) (rvOk_idle ?_ ?_ ?_ ?_ ?_ ?_ hps (fun o => ?_))
      (fun r' hne => ?_) ?_ hpso (fun o => ?_) (fun p hp => ⟨?_, hothers p hp⟩)
      (fun _ p hlo hhi _ => hnone p hlo hhi), fun r' hne => ?_, .inl ?_⟩
    all_goals simp only [State.setRv, update_self, hpart, hrv, hrvq, hfr]
    · rw [WordMap.length_clearBit]
      exact hr.len
    · exact hlast
    · exact hzero
    · exact hgone
    · exact (h.unlist r o).2
    · exact update_of_ne hne _ _
    · exact .erase h.partNodup
    · exact (h.unlist r o).1
    · exact physFree_outside _ _ _ _ (by rwa [npages0])
    · exact update_of_ne hne _ _
  rw [if_neg hlast]
  refine ⟨_, rfl, h.change (r := r) ?_ (fun r' hne => ?_) ?_ hpso (fun o => ?_)
    (fun p hp => ⟨?_, hothers p hp⟩) (fun he => ?_), fun r' hne => ?_, .inr ?_⟩
  · refine ⟨?_, ?_, ?_, ?_, ?_, ?_, fun o => ?_, fun _ j hj => ?_⟩
    all_goals simp only [State.setRv, update_self, hpart, hps, hrvq, hfr]
    · rw [WordMap.length_clearBit]
      exact hr.len
    · exact hpop.symm
    · simp
    · simp only [List.mem_append, List.mem_singleton, or_true, true_iff]
      exact ⟨hobj, by omega, by omega⟩
    · rw [if_neg (by omega)]
    · exact fun he => absurd he hobj
    · exact hr.lists o
    · exact ⟨(hr.pages hobj j hj).1, hpages j hj⟩
  all_goals simp only [State.setRv, update_self, hpart, hrv, hrvq, hfr] at *
  · exact update_of_ne hne _ _
  · exact .requeue h.partNodup
  · exact .refl (h.rvqNodup o)
  · exact absurd he hobj
  · exact update_of_ne hne _ _
  · omega

/-- Off the queue, before a reservation is dissolved. -/
theorem unqueue_rv (s : State) (r : Nat) :
    (unqueue s r).rv r = { s.rv r with inpartpopq := false } := by
  simp only [unqueue, State.setRv, update_self]

/-- The map the loop starts from: the pages in use, with `m` among them. -/
theorem breakStart_spec (rv : Rv) (r : Nat) (m : Option Nat) (hlen : rv.popmap.length = 8)
    (hcnt : rv.popcnt = WordMap.population rv.popmap 0 512)
    (hm : ∀ p, m = some p → r * 512 ≤ p ∧ p < r * 512 + 512 ∧
      WordMap.bit rv.popmap (p - r * 512) = false) :
    ∃ popmap : List (BitVec 64), popmap.length = 8 ∧ (∀ i, i < 512 → WordMap.bit popmap i =
        (WordMap.bit rv.popmap i || decide (m = some (r * 512 + i)))) ∧
      breakStart rv r m = some (popmap, (WordMap.population popmap 0 512 : Int)) := by
  cases m with
  | none => exact ⟨rv.popmap, hlen, fun i _ => by simp, by rw [breakStart, hcnt]⟩
  | some p =>
    rcases hm p rfl with ⟨hlo, hhi, hclear⟩
    have hslot : (p - r * 512) / 64 < rv.popmap.length := by
      rw [hlen]
      omega
    refine ⟨WordMap.setBit rv.popmap (p - r * 512), ?_, fun i hi => ?_, ?_⟩
    · rw [WordMap.length_setBit, hlen]
    · rw [WordMap.bit_setBit _ _ _ (by omega) hslot, Bool.or_comm]
      refine congrArg (WordMap.bit rv.popmap i || ·) (decide_eq_decide.mpr ?_)
      rw [Option.some.injEq]
      omega
    simp only [breakStart, npages0, popmapIsSet, hclear, Bool.false_eq_true, if_false]
    rw [hcnt, WordMap.population_setBit _ 512 _ (by omega) (by omega) hslot hclear]
    rfl

/-- The loop gives back all that is unused in the map it starts from. -/
theorem vmReservBreak_eq (s : State) (r : Nat) (m : Option Nat) (hobj : (s.rv r).object ≠ none)
    (hflag : (s.rv r).inpartpopq = false) {popmap : List (BitVec 64)} (hlen : popmap.length = 8)
    (hstart : breakStart (s.rv r) r m = some (popmap, (WordMap.population popmap 0 512 : Int))) :
    ∃ b, breakLoop (r * npages0) (npages0 + 1) ⟨popmap, WordMap.population popmap 0 512, 0, 0⟩
        s.free = some (b, freedBelow (r * 512) s.free popmap 512) ∧
      vmReservBreak s r m = some { s.setRv r
          { s.rv r with object := none, popmap := List.replicate npopmap 0#64, popcnt := 0 } with
        rvq := fun o => if (s.rv r).object = some o then (s.rvq o).erase r else s.rvq o
        free := freedBelow (r * 512) s.free popmap 512 } := by
  have hat : At popmap ⟨popmap, WordMap.population popmap 0 512, 0, 0⟩ (64 * 0 + 0) :=
    ⟨hlen, fun q _ => by simp, rfl⟩
  rcases breakLoop_spec (r * 512) popmap s.free 513 ⟨popmap, WordMap.population popmap 0 512, 0, 0⟩
    hat (by dsimp only; omega) (by dsimp only; omega) (by dsimp only; omega) with
    ⟨b, hloop, hend⟩
  have hnofreed : freedBelow (r * 512) s.free popmap (64 * 0 + 0) = s.free := by
    ext x
    simp only [freedBelow, Nat.mul_zero, Nat.add_zero]
    by_cases hx : r * 512 ≤ x
    · simp [show ¬ x < r * 512 by omega]
    · simp [hx]
  dsimp only at hloop
  rw [hnofreed] at hloop
  have hcnt : b.popcnt = 0 := by
    rw [hend.count]
    rfl
  have hpop : WordMap.population b.popmap 0 512 = 0 := by
    rw [WordMap.population_eq_zero]
    intro i _ hi
    rw [hend.bits i (by omega), decide_eq_false (by omega), Bool.false_and]
  refine ⟨b, hloop, ?_⟩
  rw [vmReservBreak]
  dsimp only
  rw [if_neg (by rw [hflag]; simp [hobj]), hstart]
  dsimp only
  simp only [npages0]
  rw [hloop]
  dsimp only
  rw [if_neg (by rw [hcnt]; decide), hcnt, popmap_empty hend.len hpop]

/-- Dissolving a reservation that is off the queue and not promoted. Its pages in
    use stay in use outside any reservation; the others, but for the page `m` that
    is about to be used, go back to the allocator. `s₀` is the state in which the
    reservation was still queued. -/
theorem Ok.vmReservBreak {s₀ : State} (h : Ok s₀ u) (r : Nat) (hobj : (s₀.rv r).object ≠ none)
    (hsmall : (s₀.rv r).popcnt ≠ 512)
    (hs : s = unqueue s₀ r ∨ (s = s₀ ∧ (s₀.rv r).inpartpopq = false)) (m : Option Nat)
    (hm : ∀ p, m = some p → r * 512 ≤ p ∧ p < r * 512 + 512 ∧ u p = false) :
    ∃ s', vmReservBreak s r m = some s' ∧
      Ok s' (fun p => u p || decide (m = some p)) ∧ (∀ r', r' ≠ r → s'.rv r' = s₀.rv r') ∧
      (s'.rv r).object = none ∧
      (∀ o, s'.rvq o = if (s₀.rv r).object = some o then (s₀.rvq o).erase r else s₀.rvq o) ∧
      ∀ p, m = some p → s'.free p = false := by
  have hr := h.each r
  have hps : s₀.psind (r * 512) = 0 := by rw [hr.psind, if_neg (by omega)]
  -- In both cases the reservation is off the queue and otherwise as before.
  have hrv : s.rv r = { s₀.rv r with inpartpopq := false } := by
    rcases hs with rfl | ⟨rfl, hflag⟩
    · exact unqueue_rv s₀ r
    · rw [← hflag]
  have hrvo : ∀ r', r' ≠ r → s.rv r' = s₀.rv r' := by
    intro r' hne
    rcases hs with rfl | ⟨rfl, -⟩
    · exact update_of_ne hne _ _
    · rfl
  have hpart : s.partpop = s₀.partpop.erase r := by
    rcases hs with rfl | ⟨rfl, hflag⟩
    · rfl
    rw [List.erase_of_not_mem]
    intro hmem
    rw [hr.flag.mpr hmem] at hflag
    cases hflag
  have hrvq : s.rvq = s₀.rvq := by
    rcases hs with rfl | ⟨rfl, -⟩
    all_goals rfl
  have hfree : s.free = s₀.free := by
    rcases hs with rfl | ⟨rfl, -⟩
    all_goals rfl
  have hpsind : s.psind = s₀.psind := by
    rcases hs with rfl | ⟨rfl, -⟩
    all_goals rfl
  rcases breakStart_spec (s.rv r) r m (by rw [hrv]; exact hr.len) (by rw [hrv]; exact hr.count)
    (fun p hp => by
      rcases hm p hp with ⟨hlo, hhi, hup⟩
      rw [hrv]
      dsimp only
      rw [(hr.pages hobj _ (by omega)).2, Nat.add_sub_cancel' hlo]
      exact ⟨hlo, hhi, hup⟩) with ⟨popmap, hlen, hbits', hstart⟩
  have hbits : ∀ i, i < 512 → WordMap.bit popmap i =
      (u (r * 512 + i) || decide (m = some (r * 512 + i))) := by
    intro i hi
    rw [hbits' i hi, hrv]
    dsimp only
    rw [(hr.pages hobj i hi).2]
  rcases vmReservBreak_eq s r m (by rw [hrv]; exact hobj) (by rw [hrv]) hlen hstart with ⟨-, -, heq⟩
  rw [heq]
  have hfreed : ∀ p, freedBelow (r * 512) s.free popmap 512 p = true ↔
      s₀.free p = true ∨ r * 512 ≤ p ∧ p < r * 512 + 512 ∧
        (u p || decide (m = some p)) = false := by
    intro p
    rw [freedBelow, hfree]
    simp only [Bool.or_eq_true, Bool.and_eq_true, decide_eq_true_eq, Bool.not_eq_true', and_assoc]
    by_cases hin : r * 512 ≤ p ∧ p < r * 512 + 512
    · rw [hbits _ (by omega), show r * 512 + (p - r * 512) = p by omega]
    constructor
    · rintro (hp | ⟨h1, h2, -⟩)
      · exact .inl hp
      · exact absurd ⟨h1, h2⟩ hin
    rintro (hp | ⟨h1, h2, -⟩)
    · exact .inl hp
    · exact absurd ⟨h1, h2⟩ hin
  have hgone : r ∉ s₀.partpop.erase r := h.partNodup.not_mem_erase
  have hfreed' : ∀ p, freedBelow (r * 512) s.free popmap 512 p = true →
      (u p || decide (m = some p)) = false := by
    intro p hp
    rcases (hfreed p).mp hp with hp' | ⟨-, -, hp'⟩
    · rw [h.apart p hp', Bool.false_or, decide_eq_false_iff_not]
      intro he
      rcases hm p he with ⟨hlo, hhi, -⟩
      have := (hr.pages hobj (p - r * 512) (by omega)).1
      rw [Nat.add_sub_cancel' hlo, hp'] at this
      cases this
    · exact hp'
  have hothers : ∀ p, ¬ (r * 512 ≤ p ∧ p < r * 512 + 512) → (u p || decide (m = some p)) = u p := by
    intro p hp
    rw [decide_eq_false (fun he => hp ⟨(hm p he).1, (hm p he).2.1⟩), Bool.or_false]
  refine ⟨_, rfl, h.change (r := r) (rvOk_idle ?_ ?_ ?_ ?_ ?_ ?_ ?_ (fun o => ?_))
    (fun r' hne => ?_) ?_ (fun r' hne => ?_) (fun o => ?_) (fun p hp => ⟨?_, hothers p hp⟩)
    (fun _ p _ _ hp => hfreed' p hp), fun r' hne => ?_, ?_, fun o => ?_, fun p hp => ?_⟩
  all_goals simp only [State.setRv, update_self, hpart, hpsind, hrvq, hrv]
  · rfl
  · exact population_empty
  · exact hgone
  · exact hps
  · exact (h.unlist r o).2
  · exact (update_of_ne hne _ _).trans (hrvo r' hne)
  · exact .erase h.partNodup
  · exact (h.unlist r o).1
  · rw [Bool.eq_iff_iff, hfreed]
    exact or_iff_left (fun hin => hp ⟨hin.1, hin.2.1⟩)
  · exact (update_of_ne hne _ _).trans (hrvo r' hne)
  rw [← Bool.not_eq_true]
  intro hp'
  have := hfreed' p hp'
  rw [decide_eq_true hp, Bool.or_true] at this
  cases this

end FreeBSDKern.Reserv
