import FreeBSDKern.Swap.Blist

/-!
# Bits of a Leaf

The three bit loops of a leaf and its masks, said as facts about single bits.

## Main definitions

* `cnt`: The number of free blocks below a bound.

## Theorems

* `lowBitLoop_spec`: The halving search ends at a set bit.
* `runLoop_spec`: The shifted mask finds a run exactly where there is one.
* `rangeMask_bit`: The mask of a range holds its bits.
* `nblksLoop_spec`: Clearing the lowest bit until none is left counts the bits.
-/

namespace FreeBSDKern.Swap

/-- The number of free blocks below a bound. -/
def cnt (n : Nat) (F : Nat → Bool) : Nat := Nat.count (fun i => F i = true) n

theorem eq_zero_iff_bits (b : BitVec 32) : b = 0 ↔ ∀ i, i < 32 → b.getLsbD i = false := by
  constructor
  · intro h i _
    rw [h, BitVec.ofNat_eq_ofNat, BitVec.getLsbD_zero]
  intro h
  refine BitVec.eq_of_getLsbD_eq (fun i hi => ?_)
  rw [h i hi, BitVec.ofNat_eq_ofNat, BitVec.getLsbD_zero]

/-- A masked bitmap is the mask where every bit of the mask is set. -/
theorem and_eq_mask_iff (orig mask : BitVec 32) :
    orig &&& mask = mask ↔ ∀ i, i < 32 → mask.getLsbD i = true → orig.getLsbD i = true := by
  constructor
  · intro h i hi hm
    have hbit := congrArg (fun b => b.getLsbD i) h
    simp only [BitVec.getLsbD_and, hm, Bool.and_true] at hbit
    exact hbit
  intro h
  refine BitVec.eq_of_getLsbD_eq (fun i hi => ?_)
  rw [BitVec.getLsbD_and]
  cases hm : mask.getLsbD i with
  | false => exact Bool.and_false _
  | true => rw [h i hi hm]; rfl

/-- One halving: the bit sought is in the lower or the upper half. -/
theorem lowBitLoop_step (orig0 orig mask : BitVec 32) (j r fuel : Nat) (hj : 0 < j)
    (hle : j ≤ 32) (hfuel : j < 2 ^ fuel) (hpow : ∃ a, j = 2 ^ a)
    (horig : ∀ i, orig.getLsbD i = orig0.getLsbD (r + i))
    (hmask : ∀ i, i < 32 → mask.getLsbD i = decide (i < j)) (hbit : ∃ i, i < 2 * j ∧
      orig.getLsbD i = true) :
    orig0.getLsbD (lowBitLoop fuel orig mask j r) = true := by
  induction fuel generalizing orig mask j r with
  | zero =>
    rw [Nat.pow_zero] at hfuel
    omega
  | succ fuel ih =>
    unfold lowBitLoop
    rw [if_neg (by omega)]
    rcases hpow with ⟨a, ha⟩
    -- What is left to do with the half that holds the bit.
    have hrest : ∀ (orig' : BitVec 32) (r' : Nat), (∀ i, orig'.getLsbD i = orig0.getLsbD (r' + i)) →
        (∃ i, i < j ∧ orig'.getLsbD i = true) →
        orig0.getLsbD (lowBitLoop fuel orig' (mask >>> (j / 2)) (j / 2) r') = true := by
      intro orig' r' horig' hbit'
      rcases a with _ | a
      · -- A single bit is left.
        rw [Nat.pow_zero] at ha
        rcases hbit' with ⟨i, hi, hset⟩
        have hend : lowBitLoop fuel orig' (mask >>> (j / 2)) (j / 2) r' = r' := by
          rw [ha]
          cases fuel with
          | zero | succ fuel => rfl
        rw [hend, ← Nat.add_zero r', ← horig' 0, ← show i = 0 by omega]
        exact hset
      have hhalf : j / 2 = 2 ^ a := by
        rw [ha, Nat.pow_succ]
        omega
      refine ih orig' _ (j / 2) r' (by omega) (by omega) ?_ ⟨a, hhalf⟩ horig' (fun i hi => ?_) ?_
      · rw [Nat.pow_succ] at hfuel
        omega
      · rw [BitVec.getLsbD_ushiftRight]
        by_cases hlt : j / 2 + i < 32
        · rw [hmask _ hlt]
          simp only [decide_eq_decide]
          omega
        rw [BitVec.getLsbD_of_ge _ _ (by omega)]
        simp only [Bool.false_eq, decide_eq_false_iff_not]
        omega
      · rcases hbit' with ⟨i, hi, hset⟩
        exact ⟨i, by omega, hset⟩
    by_cases hlow : orig &&& mask = 0
    · rw [if_pos hlow]
      refine hrest _ _ (fun i => ?_) ?_
      · rw [BitVec.getLsbD_ushiftRight, horig, Nat.add_assoc]
      rcases hbit with ⟨i, hi, hset⟩
      have hge : ¬ i < j := by
        intro hlt
        have hi32 : i < 32 := by
          by_contra hc
          rw [BitVec.getLsbD_of_ge _ _ (by omega)] at hset
          cases hset
        have hzero := (eq_zero_iff_bits _).mp hlow i hi32
        rw [BitVec.getLsbD_and, hset, hmask i hi32, decide_eq_true hlt] at hzero
        cases hzero
      refine ⟨i - j, by omega, ?_⟩
      rw [BitVec.getLsbD_ushiftRight, Nat.add_sub_cancel' (by omega)]
      exact hset
    rw [if_neg hlow]
    refine hrest orig r horig ?_
    by_contra hno
    refine hlow ((eq_zero_iff_bits _).mpr (fun i hi => ?_))
    rw [BitVec.getLsbD_and, hmask i hi]
    by_cases hlt : i < j
    · cases hb : orig.getLsbD i with
      | false => rfl
      | true => exact absurd ⟨i, hlt, hb⟩ hno
    · rw [decide_eq_false hlt]
      exact Bool.and_false _

theorem lowBitLoop_spec (orig : BitVec 32) (h : orig ≠ 0) :
    orig.getLsbD (lowBitLoop 6 orig (BitVec.allOnes 32 >>> (bmapRadix / 2)) (bmapRadix / 2) 0) =
      true := by
  refine lowBitLoop_step orig orig _ _ 0 6 (by decide) (by decide) (by decide) ⟨4, rfl⟩
    (fun i => by rw [Nat.zero_add]) (fun i hi => ?_) ?_
  · rw [BitVec.getLsbD_ushiftRight, BitVec.getLsbD_allOnes, bmapRadix]
    simp only [decide_eq_decide]
    omega
  by_contra hno
  refine h ((eq_zero_iff_bits orig).mpr (fun i hi => ?_))
  cases hb : orig.getLsbD i with
  | false => rfl
  | true => exact absurd ⟨i, hi, hb⟩ hno

/-- The shifted mask finds the first run of the length asked, if there is
    one. -/
theorem runLoop_spec (orig : BitVec 32) (count : Nat) (hcount : 0 < count) (fuel : Nat) :
    ∀ (mask : BitVec 32) (j : Nat), fuel + j + count = 33 →
      (∀ i, i < 32 → mask.getLsbD i = decide (j ≤ i ∧ i < j + count)) →
      (∀ j' mask', runLoop fuel orig mask j = some (j', mask') → j' + count ≤ 32 ∧
        (∀ i, i < 32 → mask'.getLsbD i = decide (j' ≤ i ∧ i < j' + count)) ∧
        ∀ i, j' ≤ i → i < j' + count → orig.getLsbD i = true) ∧
      (runLoop fuel orig mask j = none → ∀ j', j ≤ j' → j' + count ≤ 32 →
        ∃ i, j' ≤ i ∧ i < j' + count ∧ orig.getLsbD i = false) := by
  induction fuel with
  | zero =>
    intro mask j hlen _
    exact ⟨nofun, fun _ j' hj hle => absurd hle (by omega)⟩
  | succ fuel ih =>
    intro mask j hlen hmask
    unfold runLoop
    by_cases hfound : orig &&& mask = mask
    · rw [if_pos hfound]
      refine ⟨fun j' mask' h => ?_, nofun⟩
      rw [Option.some.injEq, Prod.mk.injEq] at h
      rcases h with ⟨rfl, rfl⟩
      refine ⟨by omega, hmask, fun i hi hlt => ?_⟩
      refine (and_eq_mask_iff orig mask).mp hfound i (by omega) ?_
      rw [hmask i (by omega)]
      exact decide_eq_true ⟨hi, hlt⟩
    rw [if_neg hfound]
    have hshift : ∀ i, i < 32 →
        (mask <<< 1).getLsbD i = decide (j + 1 ≤ i ∧ i < j + 1 + count) := by
      intro i hi
      rw [BitVec.getLsbD_shiftLeft]
      by_cases hzero : i < 1
      · simp only [hi, hzero, decide_true, Bool.not_true, Bool.and_false, Bool.false_and,
          Bool.false_eq, decide_eq_false_iff_not]
        omega
      rw [hmask (i - 1) (by omega)]
      simp only [hi, hzero, decide_true, decide_false, Bool.not_false, Bool.and_true,
        Bool.true_and, decide_eq_decide]
      omega
    rcases ih (mask <<< 1) (j + 1) (by omega) hshift with ⟨hsome, hnone⟩
    refine ⟨hsome, fun h j' hj hle => ?_⟩
    by_cases heq : j' = j
    · -- The mask did not match here, so one of its bits is missing.
      by_contra hno
      refine hfound ((and_eq_mask_iff orig mask).mpr (fun i hi hm => ?_))
      rw [hmask i hi, decide_eq_true_iff] at hm
      cases hb : orig.getLsbD i with
      | true => rfl
      | false => exact absurd ⟨i, by omega, by omega, hb⟩ hno
    · exact hnone h j' (by omega) hle

/-- The first mask of the search. -/
theorem firstMask_bit (count : Nat) (hle : count ≤ 32) (i : Nat) (hi : i < 32) :
    (BitVec.allOnes 32 >>> (bmapRadix - count)).getLsbD i = decide (0 ≤ i ∧ i < 0 + count) := by
  rw [BitVec.getLsbD_ushiftRight, BitVec.getLsbD_allOnes, bmapRadix]
  simp only [decide_eq_decide]
  omega

theorem rangeMask_bit (blk count : Nat) (hle : blk % 32 + count ≤ 32) (i : Nat)
    (hi : i < 32) :
    (rangeMask blk count).getLsbD i = decide (blk % 32 ≤ i ∧ i < blk % 32 + count) := by
  simp only [rangeMask, bmapRadix]
  rw [BitVec.getLsbD_and, BitVec.getLsbD_shiftLeft, BitVec.getLsbD_allOnes,
    BitVec.getLsbD_ushiftRight, BitVec.getLsbD_allOnes, Bool.eq_iff_iff]
  simp only [Bool.and_eq_true, Bool.not_eq_eq_eq_not, Bool.not_true, decide_eq_true_eq,
    decide_eq_false_iff_not]
  omega

/-- Clearing the lowest bit of a number takes one bit away. -/
theorem count_clearLow (w : Nat) : ∀ b : Nat, b ≠ 0 → b < 2 ^ w →
    Nat.count (fun i => b.testBit i = true) w =
      Nat.count (fun i => (b &&& (b - 1)).testBit i = true) w + 1 := by
  induction w with
  | zero =>
    intro b hne hlt
    rw [Nat.pow_zero] at hlt
    omega
  | succ w ih =>
    intro b hne hlt
    rw [Nat.pow_succ] at hlt
    rw [Nat.count_succ', Nat.count_succ']
    simp only [Nat.testBit_succ, Nat.testBit_zero, decide_eq_true_eq]
    have hdiv : (b &&& (b - 1)) / 2 = b / 2 &&& (b - 1) / 2 := Nat.and_div_two
    have hmod : (b &&& (b - 1)) % 2 = 0 := by
      have hone : (b &&& (b - 1)) % 2 = 1 ↔ b % 2 = 1 ∧ (b - 1) % 2 = 1 := Nat.and_mod_two_eq_one
      omega
    rw [hdiv, hmod]
    by_cases hodd : b % 2 = 1
    · -- An odd number loses its last bit and nothing else.
      have hhalf : (b - 1) / 2 = b / 2 := by omega
      rw [hhalf, Nat.and_self, if_pos hodd]
      simp
    have hhalf : (b - 1) / 2 = b / 2 - 1 := by omega
    rw [hhalf, if_neg hodd, ih (b / 2) (by omega) (by omega)]
    simp

theorem nblksLoop_spec (fuel : Nat) : ∀ (b : BitVec 32) (n : Nat),
    cnt 32 (fun i => b.getLsbD i) ≤ fuel →
    nblksLoop fuel b n = n + cnt 32 (fun i => b.getLsbD i) := by
  have hzero : cnt 32 (fun i => (0 : BitVec 32).getLsbD i) = 0 := by decide
  induction fuel with
  | zero =>
    intro b n hle
    rw [Nat.le_zero.mp hle]
    rfl
  | succ fuel ih =>
    intro b n hle
    unfold nblksLoop
    by_cases hb : b = 0
    · rw [if_pos hb, hb, hzero, Nat.add_zero]
    rw [if_neg hb]
    have hne : b.toNat ≠ 0 := fun h => hb (BitVec.eq_of_toNat_eq (by simpa using h))
    have hsub : (b - 1).toNat = b.toNat - 1 := by
      have hone : (1 : BitVec 32).toNat = 1 := rfl
      rw [BitVec.toNat_sub_of_le (by rw [BitVec.le_def, hone]; omega), hone]
    have hstep : cnt 32 (fun i => b.getLsbD i) =
        cnt 32 (fun i => (b &&& (b - 1)).getLsbD i) + 1 := by
      have := count_clearLow 32 b.toNat hne b.isLt
      rw [← hsub, ← BitVec.toNat_and] at this
      exact this
    rw [ih _ (n + 1) (by omega), hstep]
    omega

theorem cnt_le (n : Nat) (F : Nat → Bool) : cnt n F ≤ n := Nat.count_le _

theorem cnt_congr (n : Nat) (F G : Nat → Bool) (h : ∀ i, i < n → F i = G i) : cnt n F = cnt n G := by
  simp only [cnt, Nat.count_eq_card_filter_range]
  congr 1
  refine Finset.filter_congr (fun i hi => ?_)
  rw [h i (Finset.mem_range.mp hi)]

theorem cnt_eq_zero (n : Nat) (F : Nat → Bool) (h : cnt n F = 0) (i : Nat) (hi : i < n) :
    F i = false := by
  rw [cnt, Nat.count_eq_card_filter_range, Finset.card_eq_zero, Finset.filter_eq_empty_iff] at h
  exact Bool.eq_false_iff.mpr (h (Finset.mem_range.mpr hi))

theorem cnt_eq_bound (n : Nat) (F : Nat → Bool) (h : cnt n F = n) (i : Nat) (hi : i < n) :
    F i = true := by
  rw [cnt, Nat.count_eq_card_filter_range] at h
  have heq := Finset.eq_of_subset_of_card_le (Finset.filter_subset (fun i => F i = true)
    (Finset.range n)) (by rw [h, Finset.card_range])
  have hin : i ∈ (Finset.range n).filter (fun i => F i = true) := by
    rw [heq]
    exact Finset.mem_range.mpr hi
  exact (Finset.mem_filter.mp hin).2

theorem cnt_const_true (n : Nat) : cnt n (fun _ => true) = n := by
  rw [cnt, Nat.count_eq_card_filter_range, Finset.filter_true_of_mem (fun _ _ => rfl),
    Finset.card_range]

theorem cnt_const_false (n : Nat) : cnt n (fun _ => false) = 0 := by
  rw [cnt, Nat.count_eq_card_filter_range, Finset.filter_false_of_mem (fun _ _ => by decide),
    Finset.card_empty]

/-- The blocks of a range. -/
def inRange (a count i : Nat) : Bool := decide (a ≤ i ∧ i < a + count)

theorem cnt_inRange (n a count : Nat) (h : a + count ≤ n) : cnt n (inRange a count) = count := by
  rw [cnt, Nat.count_eq_card_filter_range]
  have heq : (Finset.range n).filter (fun i => inRange a count i = true) =
      Finset.Ico a (a + count) := by
    ext i
    simp only [Finset.mem_filter, Finset.mem_range, inRange, decide_eq_true_eq, Finset.mem_Ico]
    omega
  rw [heq, Nat.card_Ico, Nat.add_sub_cancel_left]

/-- Counting a part and the rest of it. -/
theorem cnt_split (n : Nat) (F G : Nat → Bool) :
    cnt n F = cnt n (fun i => F i && G i) + cnt n (fun i => F i && !G i) := by
  simp only [cnt, Nat.count_eq_card_filter_range, Bool.and_eq_true, Bool.not_eq_true']
  rw [← Finset.card_filter_add_card_filter_not (s := (Finset.range n).filter (fun i => F i = true))
    (fun i => G i = true), Finset.filter_filter, Finset.filter_filter]
  simp only [Bool.not_eq_true]

end FreeBSDKern.Swap
