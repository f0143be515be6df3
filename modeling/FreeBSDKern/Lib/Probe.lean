import Mathlib

/-!
# Linear Probing

A hash table with open addressing. A value is put in the first free slot from its home
on, around the end of the table. A slot that is emptied again may be in the way to a
value behind it, so it is only marked as deleted. Marks at the end of a chain are of no
use any more, and they are cleaned from the end backwards.

`Holds` says what the table holds and that a search finds it. The operations keep it,
each with what it changes in the homes.

## Main definitions

* `Slot`: A slot of the table.
* `seek`: The first slot from a slot on at which a loop stops.
* `clean`: Cleaning backwards.
* `Reach`: A slot can be reached from another without passing an empty one.
* `Holds`: The table holds the values that have a home.

## Theorems

* `seek_spec`: What a search finds.
* `Holds.insert`, `Holds.replace`, `Holds.delete`, `Holds.clean`: The operations.
* `Holds.find`: A value is found from its home.
-/

namespace FreeBSDKern.Lib

inductive Slot (α : Type) where
  | empty
  /-- Deleted, and may be part of a chain. -/
  | del
  | used (a : α)
deriving DecidableEq

def wrapIncr (i n : Nat) : Nat := if i + 1 = n then 0 else i + 1

def wrapDecr (i n : Nat) : Nat := if i = 0 then n - 1 else i - 1

variable {i n j s h : Nat}

theorem wrapIncr_eq (h : i < n) : wrapIncr i n = (i + 1) % n := by
  unfold wrapIncr
  split
  case isTrue heq => rw [heq, Nat.mod_self]
  case isFalse hne => rw [Nat.mod_eq_of_lt (by omega)]

theorem wrapDecr_lt (h : i < n) : wrapDecr i n < n := by
  unfold wrapDecr
  split <;> omega

theorem wrapIncr_wrapDecr (h : i < n) : wrapIncr (wrapDecr i n) n = i := by
  unfold wrapIncr wrapDecr
  by_cases hi : i = 0
  · rw [if_pos hi, if_pos (by omega), hi]
  · rw [if_neg hi, if_neg (by omega)]
    omega

section Table

variable {α : Type} {n : Nat} {t : Nat → Slot α}

/-- The first slot from `i` on at which the loop stops. -/
def seek (stop : Slot α → Bool) (n : Nat) (t : Nat → Slot α) : Nat → Nat → Option Nat
  | 0, _ => none
  | fuel + 1, i => if stop (t i) then some i else seek stop n t fuel (wrapIncr i n)

/-- Every slot is some steps ahead. -/
theorem exists_ahead (hi : i < n) (hj : j < n) : ∃ d < n, (i + d) % n = j := by
  by_cases hle : i ≤ j
  · exact ⟨j - i, by omega, by rw [Nat.add_sub_cancel' hle, Nat.mod_eq_of_lt hj]⟩
  refine ⟨j + n - i, by omega, ?_⟩
  have hsum : i + (j + n - i) = j + n := by omega
  rw [hsum, Nat.add_mod_right, Nat.mod_eq_of_lt hj]

theorem seek_of_ahead (stop : Slot α → Bool) (hn : 0 < n) :
    ∀ {fuel i d : Nat}, i < n → d < fuel → stop (t ((i + d) % n)) = true →
      ∃ e ≤ d, seek stop n t fuel i = some ((i + e) % n) ∧ stop (t ((i + e) % n)) = true ∧
        ∀ k < e, stop (t ((i + k) % n)) = false := by
  intro fuel
  induction fuel with
  | zero =>
    intro i d _ hd
    omega
  | succ fuel ih =>
    intro i d hi hd hstop
    have hself : (i + 0) % n = i := Nat.mod_eq_of_lt hi
    rw [seek]
    cases hi' : stop (t i) with
    | true =>
      refine ⟨0, zero_le, ?_, ?_, fun k hk => absurd hk (Nat.not_lt_zero k)⟩
      · rw [if_pos rfl, hself]
      · rw [hself]
        exact hi'
    | false =>
      have hpos : d ≠ 0 := by
        rintro rfl
        rw [hself, hi'] at hstop
        exact absurd hstop Bool.false_ne_true
      have hnext : ∀ k, (wrapIncr i n + k) % n = (i + (k + 1)) % n := by
        intro k
        rw [wrapIncr_eq hi, Nat.mod_add_mod]
        congr 1
        omega
      have hlt : wrapIncr i n < n := by
        rw [wrapIncr_eq hi]
        exact Nat.mod_lt _ hn
      have hstop' : stop (t ((wrapIncr i n + (d - 1)) % n)) = true := by
        rw [hnext, Nat.sub_add_cancel (by omega)]
        exact hstop
      rcases ih hlt (by omega) hstop' with ⟨e, he, hseek, hat, hbefore⟩
      rw [hnext] at hseek hat
      refine ⟨e + 1, by omega, by simpa using hseek, hat, ?_⟩
      intro k hk
      cases k with
      | zero => rwa [hself]
      | succ k =>
        rw [← hnext]
        exact hbefore k (by omega)

/-- What a search finds, if there is a slot to stop at. -/
theorem seek_spec (stop : Slot α → Bool) (hi : i < n) (hj : j < n) (hstop : stop (t j) = true) :
    ∃ e < n, seek stop n t n i = some ((i + e) % n) ∧ stop (t ((i + e) % n)) = true ∧
      ∀ k < e, stop (t ((i + k) % n)) = false := by
  rcases exists_ahead hi hj with ⟨d, hd, rfl⟩
  rcases seek_of_ahead stop (by omega) hi hd hstop with ⟨e, he, hseek⟩
  exact ⟨e, by omega, hseek⟩

/-! ## Used slots -/

/-- One for a slot that is not empty. -/
def Slot.weight : Slot α → Nat
  | .empty => 0
  | .del => 1
  | .used _ => 1

/-- The number of slots that are not empty. -/
def occupied (n : Nat) (t : Nat → Slot α) : Nat := ∑ i ∈ Finset.range n, (t i).weight

theorem weight_eq_zero {s : Slot α} : s.weight = 0 ↔ s = .empty := by
  cases s <;> simp [Slot.weight]

theorem weight_le_one (s : Slot α) : s.weight ≤ 1 := by
  cases s <;> simp [Slot.weight]

theorem occupied_update (v : Slot α) (hs : s < n) :
    occupied n (Function.update t s v) + (t s).weight = occupied n t + v.weight := by
  have hmem : s ∈ Finset.range n := Finset.mem_range.mpr hs
  have hold := Finset.add_sum_erase (Finset.range n) (fun i => (t i).weight) hmem
  have hnew := Finset.add_sum_erase (Finset.range n)
    (fun i => (Function.update t s v i).weight) hmem
  have hrest : ∑ i ∈ (Finset.range n).erase s, (Function.update t s v i).weight =
      ∑ i ∈ (Finset.range n).erase s, (t i).weight := by
    refine Finset.sum_congr rfl (fun i hi => ?_)
    rw [Function.update_of_ne (Finset.ne_of_mem_erase hi)]
  rw [hrest] at hnew
  simp only [Function.update_self] at hnew
  rw [occupied, occupied, ← hold, ← hnew]
  omega

theorem occupied_le (n : Nat) (t : Nat → Slot α) : occupied n t ≤ n := by
  have hle := Finset.sum_le_card_nsmul (Finset.range n) (fun i => (t i).weight) 1
    (fun i _ => weight_le_one (t i))
  simpa [occupied] using hle

/-- A table that is not full has an empty slot. -/
theorem exists_empty (h : occupied n t < n) : ∃ j < n, t j = .empty := by
  by_contra hall
  have hone : ∀ i ∈ Finset.range n, 1 ≤ (t i).weight := by
    intro i hi
    have hne : t i ≠ .empty := fun heq => hall ⟨i, Finset.mem_range.mp hi, heq⟩
    exact Nat.one_le_iff_ne_zero.mpr (fun hz => hne (weight_eq_zero.mp hz))
  have hle := Finset.card_nsmul_le_sum (Finset.range n) (fun i => (t i).weight) 1 hone
  have hfull : n ≤ occupied n t := by simpa [occupied] using hle
  omega

/-! ## Chains -/

/-- A slot can be reached from another without passing an empty one. -/
def Reach (n : Nat) (t : Nat → Slot α) (h s : Nat) : Prop :=
  ∃ d < n, (h + d) % n = s ∧ ∀ k < d, t ((h + k) % n) ≠ .empty

/-- A chain is still there if nothing on it has become empty. -/
theorem Reach.mono {t' : Nat → Slot α} (hr : Reach n t h s)
    (hne : ∀ i < n, t i ≠ .empty → t' i ≠ .empty) : Reach n t' h s := by
  rcases hr with ⟨d, hd, hs, hbefore⟩
  refine ⟨d, hd, hs, fun k hk => ?_⟩
  exact hne _ (Nat.mod_lt _ (by omega)) (hbefore k hk)

theorem Reach.update {v : Slot α} (hr : Reach n t h s) (hv : v ≠ .empty) :
    Reach n (Function.update t i v) h s := by
  refine hr.mono (fun j _ hne => ?_)
  by_cases hji : j = i
  · rw [hji, Function.update_self]
    exact hv
  · rwa [Function.update_of_ne hji]

/-- A search that does not stop at the empty slot it passes reaches its slot. -/
theorem reach_of_seek (stop : Slot α → Bool) (hstop : stop .empty = true) {e : Nat} (he : e < n)
    (hbefore : ∀ k < e, stop (t ((h + k) % n)) = false) : Reach n t h ((h + e) % n) := by
  refine ⟨e, he, rfl, fun k hk heq => ?_⟩
  have hfalse := hbefore k hk
  rw [heq, hstop] at hfalse
  exact absurd hfalse.symm Bool.false_ne_true

/-- A mark just before an empty slot is on no chain. -/
theorem Reach.clean_step {h s i : Nat} {a : α} (hr : Reach n t h s) (hs : t s = .used a)
    (hi : i < n) (hnext : t (wrapIncr i n) = .empty) :
    Reach n (Function.update t i .empty) h s := by
  rcases hr with ⟨d, hd, hds, hbefore⟩
  refine ⟨d, hd, hds, fun k hk => ?_⟩
  have hne : (h + k) % n ≠ i := by
    intro heq
    have hsucc : (h + (k + 1)) % n = wrapIncr i n := by
      rw [wrapIncr_eq hi, ← heq, Nat.mod_add_mod]
      rfl
    rcases lt_or_ge (k + 1) d with hlt | hge
    · exact hbefore (k + 1) hlt (by rw [hsucc, hnext])
    -- The next slot is the one that is reached, and it is not empty.
    have heq' : k + 1 = d := by omega
    rw [heq', hds] at hsucc
    rw [hsucc, hnext] at hs
    cases hs
  rw [Function.update_of_ne hne]
  exact hbefore k hk

/-! ## What a table holds -/

/-- The table holds the values that have a home, each once, where a search from its
    home finds it. -/
structure Holds (n : Nat) (t : Nat → Slot α) (home : α → Option Nat) : Prop where
  sound : ∀ {i a}, i < n → t i = .used a → home a ≠ none
  found : ∀ {a h}, home a = some h → h < n ∧ ∃ i < n, t i = .used a ∧ Reach n t h i
  once : ∀ {i j a}, i < n → j < n → t i = .used a → t j = .used a → i = j

variable [DecidableEq α] {home : α → Option Nat}

theorem Holds.insert (ht : Holds n t home) {a : α} {h s : Nat} (ha : home a = none) (hh : h < n)
    (hs : s < n) (hr : Reach n t h s) (hfree : ∀ b, t s ≠ .used b) :
    Holds n (Function.update t s (.used a)) (Function.update home a (some h)) where
  sound := by
    intro i b hi hb
    by_cases hba : b = a
    · rw [hba, Function.update_self]
      exact Option.some_ne_none h
    rw [Function.update_of_ne hba]
    by_cases his : i = s
    · rw [his, Function.update_self, Slot.used.injEq] at hb
      exact absurd hb.symm hba
    · rw [Function.update_of_ne his] at hb
      exact ht.sound hi hb
  found := by
    intro b h' hb
    by_cases hba : b = a
    · rw [hba, Function.update_self, Option.some.injEq] at hb
      rw [← hb, hba]
      exact ⟨hh, s, hs, Function.update_self _ _ _, hr.update (by simp only [ne_eq, reduceCtorEq,
        not_false_eq_true])⟩
    rw [Function.update_of_ne hba] at hb
    rcases ht.found hb with ⟨hh', i, hi, hti, hri⟩
    have his : i ≠ s := fun heq => hfree b (heq ▸ hti)
    refine ⟨hh', i, hi, ?_, hri.update (by simp only [ne_eq, reduceCtorEq, not_false_eq_true])⟩
    rw [Function.update_of_ne his]
    exact hti
  once := by
    intro i j b hi hj hti htj
    -- A value that is new to the table is in no other slot of it.
    have hnew : ∀ k < n, t k ≠ .used a := fun k hk htk => ht.sound hk htk ha
    by_cases his : i = s
    · by_cases hjs : j = s
      · rw [his, hjs]
      rw [his, Function.update_self, Slot.used.injEq] at hti
      rw [Function.update_of_ne hjs, ← hti] at htj
      exact absurd htj (hnew j hj)
    rw [Function.update_of_ne his] at hti
    by_cases hjs : j = s
    · rw [hjs, Function.update_self, Slot.used.injEq] at htj
      rw [← htj] at hti
      exact absurd hti (hnew i hi)
    · rw [Function.update_of_ne hjs] at htj
      exact ht.once hi hj hti htj

theorem Holds.delete (ht : Holds n t home) {a : α} {s : Nat} (hs : s < n) (hts : t s = .used a) :
    Holds n (Function.update t s .del) (Function.update home a none) where
  sound := by
    intro i b hi hb
    have his : i ≠ s := by
      rintro rfl
      rw [Function.update_self] at hb
      cases hb
    rw [Function.update_of_ne his] at hb
    have hba : b ≠ a := by
      rintro rfl
      exact his (ht.once hi hs hb hts)
    rw [Function.update_of_ne hba]
    exact ht.sound hi hb
  found := by
    intro b h hb
    have hba : b ≠ a := by
      rintro rfl
      rw [Function.update_self] at hb
      cases hb
    rw [Function.update_of_ne hba] at hb
    rcases ht.found hb with ⟨hh, i, hi, hti, hri⟩
    have his : i ≠ s := by
      rintro rfl
      rw [hti, Slot.used.injEq] at hts
      exact hba hts
    refine ⟨hh, i, hi, ?_, hri.update (by simp only [ne_eq, reduceCtorEq, not_false_eq_true])⟩
    rw [Function.update_of_ne his]
    exact hti
  once := by
    intro i j b hi hj hti htj
    have hmem : ∀ k, Function.update t s .del k = .used b → t k = .used b := by
      intro k hk
      by_cases hks : k = s
      · rw [hks, Function.update_self] at hk
        cases hk
      · rwa [Function.update_of_ne hks] at hk
    exact ht.once hi hj (hmem i hti) (hmem j htj)

/-- A value takes the slot of another one, and its home. -/
theorem Holds.replace (ht : Holds n t home) {a b : α} (ha : home a = some h)
    (hb : b ≠ a → home b = none) (hs : s < n) (hts : t s = .used a) :
    Holds n (Function.update t s (.used b))
      (Function.update (Function.update home a none) b (some h)) := by
  have hdel := ht.delete hs hts
  have hr : Reach n (Function.update t s .del) h s := by
    rcases ht.found ha with ⟨-, i, hi, hti, hri⟩
    rw [← ht.once hi hs hti hts]
    exact hri.update (by simp only [ne_eq, reduceCtorEq, not_false_eq_true])
  have hnone : Function.update home a none b = none := by
    by_cases hba : b = a
    · rw [hba, Function.update_self]
    · rw [Function.update_of_ne hba]
      exact hb hba
  have hnew := hdel.insert hnone (ht.found ha).1 hs hr (fun c => by
    rw [Function.update_self]
    simp only [ne_eq, reduceCtorEq, not_false_eq_true])
  rwa [Function.update_idem] at hnew

/-- A search from its home finds a value. -/
theorem Holds.find (ht : Holds n t home) {a : α} (ha : home a = some h) :
    ∃ s < n, seek (fun v => v = .used a ∨ v = .empty) n t n h = some s ∧ t s = .used a := by
  rcases ht.found ha with ⟨hh, i, hi, hti, d, hd, hdi, hbefore⟩
  have hstop : decide (t ((h + d) % n) = .used a ∨ t ((h + d) % n) = .empty) = true := by
    rw [hdi]
    exact decide_eq_true (.inl hti)
  rcases seek_of_ahead (fun v => v = .used a ∨ v = .empty) (by omega) hh hd hstop with
    ⟨e, he, hseek, hat, -⟩
  refine ⟨(h + e) % n, Nat.mod_lt _ (by omega), hseek, ?_⟩
  rcases of_decide_eq_true hat with hat | hat
  · exact hat
  -- An empty slot would be on the chain, or be the slot of the value.
  rcases lt_or_ge e d with hlt | hge
  · exact absurd hat (hbefore e hlt)
  have heq : e = d := by omega
  rw [heq, hdi]
  exact hti

/-! ## Cleaning -/

/-- Empty the marks from a slot backwards, and count them. -/
def clean (n : Nat) : Nat → Nat → (Nat → Slot α) → Nat → Option ((Nat → Slot α) × Nat)
  | 0, _, _, _ => none
  | fuel + 1, i, t, c =>
    if t i = .del then clean n fuel (wrapDecr i n) (Function.update t i .empty) (c - 1)
    else some (t, c)

/-- The number of marks. -/
def marks (n : Nat) (t : Nat → Slot α) : Nat :=
  ((Finset.range n).filter (fun i => t i = .del)).card

theorem marks_clean (hi : i < n) (hti : t i = .del) :
    marks n (Function.update t i .empty) < marks n t := by
  refine Finset.card_lt_card (Finset.ssubset_iff_subset_ne.mpr ⟨?_, ?_⟩)
  · intro k hk
    rw [Finset.mem_filter] at hk ⊢
    by_cases hki : k = i
    · exact ⟨hk.1, hki ▸ hti⟩
    · rw [Function.update_of_ne hki] at hk
      exact hk
  intro heq
  have hmem : i ∈ (Finset.range n).filter (fun k => t k = .del) :=
    Finset.mem_filter.mpr ⟨Finset.mem_range.mpr hi, hti⟩
  rw [← heq, Finset.mem_filter, Function.update_self] at hmem
  cases hmem.2

theorem marks_lt (hj : j < n) (hempty : t j = .empty) : marks n t < n := by
  have hlt : marks n t < (Finset.range n).card := by
    refine Finset.card_lt_card (Finset.filter_ssubset.mpr ⟨j, Finset.mem_range.mpr hj, ?_⟩)
    rw [hempty]
    simp only [reduceCtorEq, not_false_eq_true]
  rwa [Finset.card_range] at hlt

omit [DecidableEq α] in
/-- Emptying a mark just before an empty slot. -/
theorem Holds.clean_step (ht : Holds n t home) (hi : i < n) (hti : t i = .del)
    (hnext : t (wrapIncr i n) = .empty) : Holds n (Function.update t i .empty) home := by
  have hmem : ∀ k a, Function.update t i .empty k = .used a ↔ t k = .used a := by
    intro k a
    by_cases hki : k = i
    · rw [hki, Function.update_self, hti]
      simp only [reduceCtorEq]
    · rw [Function.update_of_ne hki]
  refine ⟨?_, ?_, ?_⟩
  · intro k a hk hka
    exact ht.sound hk ((hmem k a).mp hka)
  · intro a h ha
    rcases ht.found ha with ⟨hh, k, hk, htk, hr⟩
    exact ⟨hh, k, hk, (hmem k a).mpr htk, hr.clean_step htk hi hnext⟩
  · intro k l a hk hl hka hla
    exact ht.once hk hl ((hmem k a).mp hka) ((hmem l a).mp hla)

/-- Cleaning backwards from an empty slot ends, and the table holds what it did. -/
theorem Holds.clean : ∀ {fuel i : Nat} {t : Nat → Slot α} {c : Nat},
    Holds n t home → c = occupied n t → i < n → t (wrapIncr i n) = .empty → marks n t < fuel →
      ∃ t' c', Lib.clean n fuel i t c = some (t', c') ∧ Holds n t' home ∧ c' = occupied n t' ∧
        c' ≤ c := by
  intro fuel
  induction fuel with
  | zero =>
    intro i t c _ _ _ _ hfuel
    omega
  | succ fuel ih =>
    intro i t c ht hc hi hnext hfuel
    rw [Lib.clean]
    by_cases hti : t i = .del
    · rw [if_pos hti]
      have hlt := marks_clean hi hti
      have hweight := occupied_update (t := t) .empty hi
      rw [hti] at hweight
      simp only [Slot.weight] at hweight
      have hnext' : Function.update t i .empty (wrapIncr (wrapDecr i n) n) = .empty := by
        rw [wrapIncr_wrapDecr hi, Function.update_self]
      rcases ih (c := c - 1) (ht.clean_step hi hti hnext) (by omega) (wrapDecr_lt hi) hnext'
        (by omega) with
        ⟨t', c', hclean, ht', hc', hle⟩
      exact ⟨t', c', hclean, ht', hc', by omega⟩
    · rw [if_neg hti]
      exact ⟨t, c, rfl, ht, hc, Nat.le_refl c⟩

end Table

end FreeBSDKern.Lib
