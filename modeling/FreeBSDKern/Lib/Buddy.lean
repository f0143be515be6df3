import Mathlib

/-!
# Buddy Systems

Blocks of power-of-two size at multiples of their size, with at most one block
starting at each page.

A buddy system is given by one number for each page: the order of the free block
that starts there, or a limit that no block has. The two facts that make this
work are about alignment alone. Two blocks at multiples of their sizes are nested
or apart, and the block beside a block in the next larger one is found by
flipping one bit of its address.

## Main definitions

* `buddy`: The other half of the next larger block.
* `floorTo`: The start of the block of an order that a page lies in.
* `BuddyMap`: The blocks of an order map are at multiples of their sizes and apart.
* `covered`: The pages that lie in some block.
* `Coalesced`: No block is beside another of its order where they could be joined.

## Theorems

* `buddy_eq`: Which half the buddy is.
* `BuddyMap.remove`, `BuddyMap.insert`: One block less, one block more.
* `covered_remove`, `covered_insert`: What this does to the pages covered.
* `BuddyMap.covered_iff`: A covered page finds its block by rounding down.
* `Coalesced.large_block`: Where all pages of an aligned run are covered, one block
  covers it.
-/

namespace FreeBSDKern.Lib

open Function

/-- The other half of the block of the next order. -/
def buddy (m k : Nat) : Nat := m ^^^ 2 ^ k

/-- The start of the block of order `k` that a page lies in. -/
def floorTo (p k : Nat) : Nat := p / 2 ^ k * 2 ^ k

theorem buddy_buddy (m k : Nat) : buddy (buddy m k) k = m := by
  rw [buddy, buddy, Nat.xor_assoc, Nat.xor_self, Nat.xor_zero]

theorem xor_one (q : Nat) : q ^^^ 1 = if q % 2 = 0 then q + 1 else q - 1 := by
  have hdiv : (q ^^^ 1) / 2 = q / 2 := by
    rw [Nat.xor_div_two]
    exact Nat.xor_zero _
  have hmod : (q ^^^ 1) % 2 = 1 ↔ ¬ q % 2 = 1 := by
    rw [Nat.xor_mod_two_eq_one]
    omega
  split <;> omega

variable {m k p : Nat} {Same : Nat → Nat → Prop}

/-- The buddy of the lower half is the upper half, and the other way around. -/
theorem buddy_eq (hm : 2 ^ k ∣ m) :
    buddy m k = if 2 ^ (k + 1) ∣ m then m + 2 ^ k else m - 2 ^ k := by
  rcases hm with ⟨q, rfl⟩
  have hshift : buddy (2 ^ k * q) k = 2 ^ k * (q ^^^ 1) := by
    have hone : 2 ^ k = 1 <<< k := by rw [Nat.shiftLeft_eq, Nat.one_mul]
    rw [buddy, Nat.mul_comm, ← Nat.shiftLeft_eq, hone, ← Nat.shiftLeft_xor_distrib, ← hone,
      Nat.shiftLeft_eq, Nat.mul_comm]
  have hdvd : 2 ^ (k + 1) ∣ 2 ^ k * q ↔ q % 2 = 0 := by
    rw [Nat.pow_succ, Nat.mul_dvd_mul_iff_left (Nat.two_pow_pos k), Nat.dvd_iff_mod_eq_zero]
  rw [hshift, xor_one]
  by_cases hq : q % 2 = 0
  · rw [if_pos hq, if_pos (hdvd.mpr hq), Nat.mul_add, Nat.mul_one]
  · rw [if_neg hq, if_neg (fun h => hq (hdvd.mp h)), Nat.mul_sub, Nat.mul_one]

theorem le_of_dvd_not (hm : 2 ^ k ∣ m) (hodd : ¬ 2 ^ (k + 1) ∣ m) : 2 ^ k ≤ m := by
  refine Nat.le_of_dvd (Nat.pos_of_ne_zero ?_) hm
  rintro rfl
  exact hodd (Nat.dvd_zero _)

theorem buddy_ne (m k : Nat) : buddy m k ≠ m := by
  intro h
  have : m ^^^ (m ^^^ 2 ^ k) = 0 := by
    rw [show m ^^^ 2 ^ k = m from h, Nat.xor_self]
  rw [← Nat.xor_assoc, Nat.xor_self, Nat.zero_xor] at this
  exact absurd this (Nat.two_pow_pos k).ne'

theorem floorTo_dvd (p k : Nat) : 2 ^ k ∣ floorTo p k := Nat.dvd_mul_left _ _

theorem floorTo_le (p k : Nat) : floorTo p k ≤ p := Nat.div_mul_le_self p (2 ^ k)

theorem lt_floorTo (p k : Nat) : p < floorTo p k + 2 ^ k := by
  have := Nat.div_add_mod p (2 ^ k)
  rw [floorTo, Nat.mul_comm]
  omega

/-- The block a page lies in is the one that starts where it is rounded down to. -/
theorem floorTo_eq (hm : 2 ^ k ∣ m) (hle : m ≤ p) (hlt : p < m + 2 ^ k) : floorTo p k = m := by
  rcases hm with ⟨q, rfl⟩
  have hq : p / 2 ^ k = q := by
    refine Nat.div_eq_of_lt_le ?_ ?_
    · rwa [Nat.mul_comm]
    · rwa [Nat.add_mul, Nat.one_mul, Nat.mul_comm]
  rw [floorTo, hq, Nat.mul_comm]

theorem floorTo_zero (p : Nat) : floorTo p 0 = p := by
  rw [floorTo, Nat.pow_zero, Nat.div_one, Nat.mul_one]

theorem floorTo_floorTo {j : Nat} (hjk : j ≤ k) (p : Nat) :
    floorTo (floorTo p j) k = floorTo p k := by
  have hle := floorTo_le p j
  refine floorTo_eq (floorTo_dvd p k) ?_ (lt_of_le_of_lt hle (lt_floorTo p k))
  -- The larger block starts at a multiple of the smaller size.
  rcases Nat.dvd_trans (Nat.pow_dvd_pow 2 hjk) (floorTo_dvd p k) with ⟨q, hq⟩
  have hfloor := floorTo_le p k
  rw [hq, Nat.mul_comm] at hfloor ⊢
  exact Nat.mul_le_mul_right _ ((Nat.le_div_iff_mul_le (Nat.two_pow_pos j)).mpr hfloor)

/-- The two halves of the next larger block. -/
theorem floorTo_buddy (hm : 2 ^ k ∣ m) : (floorTo m (k + 1) = m ∧ buddy m k = m + 2 ^ k) ∨
      (floorTo m (k + 1) = buddy m k ∧ buddy m k + 2 ^ k = m) := by
  have hpos := Nat.two_pow_pos k
  rw [buddy_eq hm]
  by_cases heven : 2 ^ (k + 1) ∣ m
  · rw [if_pos heven]
    exact Or.inl ⟨floorTo_eq heven le_rfl (by omega), rfl⟩
  rw [if_neg heven]
  have hle := le_of_dvd_not hm heven
  refine Or.inr ⟨floorTo_eq ?_ (by omega) (by omega), by omega⟩
  -- Half of an odd number of half blocks, less one of them, is a block.
  rcases hm with ⟨q, rfl⟩
  rw [Nat.pow_succ, Nat.mul_dvd_mul_iff_left hpos, Nat.dvd_iff_mod_eq_zero] at heven
  rw [Nat.pow_succ, ← Nat.mul_sub_one, Nat.mul_dvd_mul_iff_left hpos, Nat.dvd_iff_mod_eq_zero]
  omega

/-- The pages of the next larger block. -/
theorem Ico_floorTo (hm : 2 ^ k ∣ m) :
    Set.Ico (floorTo m (k + 1)) (floorTo m (k + 1) + 2 ^ (k + 1)) =
      Set.Ico m (m + 2 ^ k) ∪ Set.Ico (buddy m k) (buddy m k + 2 ^ k) := by
  ext p
  rw [Set.mem_union, Set.mem_Ico, Set.mem_Ico, Set.mem_Ico]
  rcases floorTo_buddy hm with ⟨hf, hb⟩ | ⟨hf, hb⟩
  · omega
  · omega

/-- The start of the next larger block is the same from both halves. -/
theorem floorTo_buddy_eq (hm : 2 ^ k ∣ m) : floorTo (buddy m k) (k + 1) = floorTo m (k + 1) := by
  have hdvd := floorTo_dvd m (k + 1)
  rcases floorTo_buddy hm with ⟨hf, hb⟩ | ⟨hf, hb⟩
  · exact floorTo_eq hdvd (by omega) (by omega)
  · exact floorTo_eq hdvd (by omega) (by omega)

/-- A smaller block that starts inside a larger one ends inside it. -/
theorem block_sub {a b j : Nat} (ha : 2 ^ j ∣ a) (hb : 2 ^ k ∣ b) (hjk : j ≤ k)
    (hlt : a < b + 2 ^ k) : a + 2 ^ j ≤ b + 2 ^ k := by
  have hpow : 2 ^ j ∣ 2 ^ k := Nat.pow_dvd_pow 2 hjk
  rcases ha with ⟨x, rfl⟩
  rcases Nat.dvd_add (Nat.dvd_trans hpow hb) hpow with ⟨y, hy⟩
  rw [hy] at hlt ⊢
  rw [← Nat.mul_succ]
  exact Nat.mul_le_mul_left _ (Nat.lt_of_mul_lt_mul_left hlt)

/-- Blocks of the order map start at multiples of their sizes and do not overlap.
    The limit `N` is the order of a page where none starts. -/
structure BuddyMap (N : Nat) (ord : Nat → Nat) : Prop where
  le : ∀ m, ord m ≤ N
  aligned : ∀ m, ord m < N → 2 ^ ord m ∣ m
  apart : ∀ m m', ord m < N → ord m' < N → m < m' → m + 2 ^ ord m ≤ m'

/-- The pages in the blocks. -/
def covered (N : Nat) (ord : Nat → Nat) : Set Nat :=
  {p | ∃ m, m ≤ p ∧ ord m < N ∧ p < m + 2 ^ ord m}

/-- No block can be joined with its buddy. `Same` says which pages could be in
    one block. -/
def Coalesced (N : Nat) (Same : Nat → Nat → Prop) (ord : Nat → Nat) : Prop :=
  ∀ m, ord m + 1 < N → Same m (buddy m (ord m)) → ord (buddy m (ord m)) ≠ ord m

variable {N : Nat} {ord : Nat → Nat}

theorem covered_head (hm : ord m < N) : m ∈ covered N ord :=
  ⟨m, Nat.le_refl m, hm, Nat.lt_add_of_pos_right (Nat.two_pow_pos _)⟩

theorem BuddyMap.eq_limit (h : BuddyMap N ord) (hm : m ∉ covered N ord) : ord m = N := by
  by_contra hne
  exact hm (covered_head (lt_of_le_of_ne (h.le m) hne))

/-- Two blocks with a page in common are one block. -/
theorem BuddyMap.head_unique (h : BuddyMap N ord) {m' : Nat} (hm : ord m < N) (hm' : ord m' < N)
    (hle : m ≤ p) (hlt : p < m + 2 ^ ord m) (hle' : m' ≤ p) (hlt' : p < m' + 2 ^ ord m') :
    m = m' := by
  rcases Nat.lt_trichotomy m m' with hcmp | heq | hcmp
  · have := h.apart m m' hm hm' hcmp
    omega
  · exact heq
  · have := h.apart m' m hm' hm hcmp
    omega

/-- A page in a block is rounded down to the start of the block. -/
theorem BuddyMap.covered_iff (h : BuddyMap N ord) :
    p ∈ covered N ord ↔ ∃ k < N, ord (floorTo p k) = k := by
  constructor
  · rintro ⟨m, hle, hm, hlt⟩
    refine ⟨ord m, hm, ?_⟩
    rw [floorTo_eq (h.aligned m hm) hle hlt]
  rintro ⟨k, hk, hord⟩
  refine ⟨floorTo p k, floorTo_le p k, by rw [hord]; exact hk, ?_⟩
  rw [hord]
  exact lt_floorTo p k

-- Strong induction on the order of the run. If the block at its start is smaller than the
-- run, then the run from the middle on has that order too, and by induction a block
-- covers it: it is the buddy, which could be joined, or it covers the first block as well.
theorem Coalesced.large_block (hc : Coalesced N Same ord) (h : BuddyMap N ord) :
    ∀ {k m : Nat}, k < N → 2 ^ k ∣ m → Set.Ico m (m + 2 ^ k) ⊆ covered N ord →
      (∀ a ∈ Set.Ico m (m + 2 ^ k), ∀ b ∈ Set.Ico m (m + 2 ^ k), Same a b) →
      ∃ j, k ≤ j ∧ j < N ∧ ord (floorTo m j) = j := by
  intro k
  induction k using Nat.strong_induction_on with
  | h k ih =>
    intro m hk hm hsub hsame
    have hself : m ∈ Set.Ico m (m + 2 ^ k) :=
      Set.left_mem_Ico.mpr (Nat.lt_add_of_pos_right (Nat.two_pow_pos k))
    rcases h.covered_iff.mp (hsub hself) with ⟨j, hj, hord⟩
    refine ⟨j, ?_, hj, hord⟩
    by_contra hlt
    rw [not_le] at hlt
    have hdvd : 2 ^ (j + 1) ∣ m := Nat.dvd_trans (Nat.pow_dvd_pow 2 hlt) hm
    have hdvd' : 2 ^ j ∣ m := Nat.dvd_trans (Nat.pow_dvd_pow 2 (Nat.le_succ j)) hdvd
    have hmono : 2 ^ (j + 1) ≤ 2 ^ k := Nat.pow_le_pow_right (by omega) hlt
    have hpos := Nat.two_pow_pos j
    rw [floorTo_eq hdvd' le_rfl (by omega)] at hord
    have hbuddy : buddy m j = m + 2 ^ j := by rw [buddy_eq hdvd', if_pos hdvd]
    have hupper : Set.Ico (m + 2 ^ j) (m + 2 ^ j + 2 ^ j) ⊆ Set.Ico m (m + 2 ^ k) :=
      Set.Ico_subset_Ico (Nat.le_add_right m _) (by omega)
    have hmid : m + 2 ^ j ∈ Set.Ico m (m + 2 ^ k) :=
      hupper (Set.left_mem_Ico.mpr (Nat.lt_add_of_pos_right hpos))
    rcases ih j hlt (by omega) (Nat.dvd_add hdvd' (Nat.dvd_refl _))
      (Set.Subset.trans hupper hsub) (fun a ha b hb => hsame a (hupper ha) b (hupper hb)) with
      ⟨i, hji, hi, hordi⟩
    by_cases heq : i = j
    · rw [heq, floorTo_eq (Nat.dvd_add hdvd' (Nat.dvd_refl _)) le_rfl (by omega),
        ← hbuddy] at hordi
      have hjoin := hc m (by rw [hord]; omega)
      rw [hord, hbuddy] at hjoin
      rw [hbuddy] at hordi
      exact hjoin (hsame m hself _ hmid) hordi
    -- The block of the upper half starts before it, so the first block is the same one.
    have hfloor : floorTo (m + 2 ^ j) i = floorTo m i := by
      rw [← floorTo_floorTo (lt_of_le_of_ne hji (Ne.symm heq)),
        floorTo_eq hdvd (Nat.le_add_right m _) (by omega)]
    rw [hfloor] at hordi
    have hsingle := h.head_unique (p := m) (by rw [hord]; omega) (by rw [hordi]; exact hi)
      le_rfl (Nat.lt_add_of_pos_right (Nat.two_pow_pos _)) (floorTo_le m i)
      (by rw [hordi]; exact lt_floorTo m i)
    rw [← hsingle, hord] at hordi
    exact heq hordi.symm

section remove

variable {m : Nat}

theorem BuddyMap.remove (h : BuddyMap N ord) : BuddyMap N (update ord m N) := by
  have hother : ∀ m', update ord m N m' < N → update ord m N m' = ord m' ∧ ord m' < N := by
    intro m' hlt
    rw [update_apply] at hlt ⊢
    by_cases hmm : m' = m
    · rw [if_pos hmm] at hlt
      exact absurd hlt (lt_irrefl N)
    · rw [if_neg hmm] at hlt ⊢
      exact ⟨rfl, hlt⟩
  refine ⟨fun m' => ?_, fun m' hm' => ?_, fun a b ha hb hab => ?_⟩
  · rw [update_apply]
    split
    · exact Nat.le_refl N
    · exact h.le m'
  · rw [(hother m' hm').1]
    exact h.aligned m' (hother m' hm').2
  · rw [(hother a ha).1]
    exact h.apart a b (hother a ha).2 (hother b hb).2 hab

theorem covered_remove (h : BuddyMap N ord) (hm : ord m < N) :
    covered N (update ord m N) = covered N ord \ Set.Ico m (m + 2 ^ ord m) := by
  ext p
  rw [Set.mem_sdiff, Set.mem_Ico]
  constructor
  · rintro ⟨m', hle, hm', hlt⟩
    by_cases hmm : m' = m
    · rw [hmm, update_self] at hm'
      exact absurd hm' (lt_irrefl N)
    · rw [update_of_ne hmm] at hm' hlt
      exact ⟨⟨m', hle, hm', hlt⟩, fun hin => hmm (h.head_unique hm' hm hle hlt hin.1 hin.2)⟩
  rintro ⟨⟨m', hle, hm', hlt⟩, hout⟩
  have hmm : m' ≠ m := fun heq => hout (by rw [← heq]; exact ⟨hle, hlt⟩)
  refine ⟨m', hle, ?_, ?_⟩
  · rwa [update_of_ne hmm]
  · rwa [update_of_ne hmm]

theorem Coalesced.remove (h : Coalesced N Same ord) : Coalesced N Same (update ord m N) := by
  intro m' hlt hsame
  have hmm : m' ≠ m := by
    rintro rfl
    rw [update_self] at hlt
    omega
  rw [update_of_ne hmm] at hlt hsame ⊢
  rw [update_apply]
  split
  · omega
  · exact h m' hlt hsame

end remove

section insert

variable {m k : Nat}

/-- A block of pages that no block covers can be added. -/
theorem BuddyMap.insert (h : BuddyMap N ord) (hk : k < N) (hm : 2 ^ k ∣ m)
    (hnew : ∀ p ∈ Set.Ico m (m + 2 ^ k), p ∉ covered N ord) : BuddyMap N (update ord m k) := by
  have hfar : ∀ m', ord m' < N → m' + 2 ^ ord m' ≤ m ∨ m + 2 ^ k ≤ m' := by
    intro m' hm'
    by_contra hcon
    rcases Nat.le_total m' m with hle | hle
    · exact hnew m ⟨Nat.le_refl m, Nat.lt_add_of_pos_right (Nat.two_pow_pos k)⟩
        ⟨m', hle, hm', by omega⟩
    · exact hnew m' ⟨hle, by omega⟩ (covered_head hm')
  refine ⟨fun m' => ?_, fun m' hm' => ?_, fun a b ha hb hab => ?_⟩
  · rw [update_apply]
    split
    · exact le_of_lt hk
    · exact h.le m'
  · rw [update_apply] at hm' ⊢
    split
    case isTrue heq => rwa [heq]
    case isFalse hne =>
      rw [if_neg hne] at hm'
      exact h.aligned m' hm'
  have hpow := Nat.two_pow_pos k
  rw [update_apply] at ha hb ⊢
  by_cases ham : a = m
  · subst ham
    have hbm : b ≠ a := Nat.ne_of_gt hab
    rw [if_neg hbm] at hb
    rw [if_pos rfl]
    have := hfar b hb
    have := Nat.two_pow_pos (ord b)
    omega
  rw [if_neg ham] at ha ⊢
  by_cases hbm : b = m
  · subst hbm
    have := hfar a ha
    omega
  · rw [if_neg hbm] at hb
    exact h.apart a b ha hb hab

theorem covered_insert (hk : k < N) (hnew : m ∉ covered N ord) :
    covered N (update ord m k) = covered N ord ∪ Set.Ico m (m + 2 ^ k) := by
  ext p
  rw [Set.mem_union, Set.mem_Ico]
  constructor
  · rintro ⟨m', hle, hm', hlt⟩
    by_cases hmm : m' = m
    · subst hmm
      rw [update_self] at hlt
      exact Or.inr ⟨hle, hlt⟩
    · rw [update_of_ne hmm] at hm' hlt
      exact Or.inl ⟨m', hle, hm', hlt⟩
  rintro (⟨m', hle, hm', hlt⟩ | ⟨hle, hlt⟩)
  · have hmm : m' ≠ m := by
      rintro rfl
      exact hnew (covered_head hm')
    refine ⟨m', hle, ?_, ?_⟩
    · rwa [update_of_ne hmm]
    · rwa [update_of_ne hmm]
  refine ⟨m, hle, ?_, ?_⟩
  · rwa [update_self]
  · rwa [update_self]

/-- The block added must not be one that can be joined. -/
theorem Coalesced.insert (hsymm : ∀ a b, Same a b → Same b a) (h : Coalesced N Same ord)
    (hnew : k + 1 < N → Same m (buddy m k) → ord (buddy m k) ≠ k) :
    Coalesced N Same (update ord m k) := by
  intro m' hlt hsame
  by_cases hmm : m' = m
  · subst hmm
    rw [update_self] at hlt hsame ⊢
    rw [update_of_ne (buddy_ne m' k)]
    exact hnew hlt hsame
  rw [update_of_ne hmm] at hlt hsame ⊢
  by_cases hb : buddy m' (ord m') = m
  · rw [hb, update_self]
    intro hk
    have hback : buddy m k = m' := by
      rw [hk, ← hb, buddy_buddy]
    refine hnew (by rw [hk]; exact hlt) ?_ ?_
    · rw [hback, ← hb]
      exact hsymm _ _ hsame
    · rw [hback, hk]
  · rw [update_of_ne hb]
    exact h m' hlt hsame

end insert

end FreeBSDKern.Lib
