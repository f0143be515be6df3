import Mathlib

/-!
# Masks of High Bits

The negative of a power of two, as a word, has all the bits from the power on.
Code that rounds an address or compares two of them uses it as a mask.

## Theorems

* `and_neg_pow`: A word under the mask is the word rounded down.
* `xor_and_neg_pow`: Two words differ under the mask where they lie in different
  blocks of that size.
* `and_sub_one_eq_zero`, `xor_and_not_eq_zero`: The same of words, for the mask that
  a power of two less one is.
* `no_multiple_inside`: A range with no multiple inside it is in one block.
* `next_multiple_le`: The block of a number does not go beyond a multiple of its size.
-/

namespace FreeBSDKern.Lib

variable {w : Nat}

/-- A word without its low bits. -/
theorem and_neg_pow (y k : Nat) (hy : y < 2 ^ w) (hk : k ≤ w) :
    y &&& (2 ^ w - 2 ^ k) = y - y % 2 ^ k := by
  have hmask : 2 ^ w - 2 ^ k = (2 ^ (w - k) - 1) <<< k := by
    rw [Nat.shiftLeft_eq, Nat.sub_mul, ← Nat.pow_add, Nat.sub_add_cancel hk, Nat.one_mul]
  have hhigh : y - y % 2 ^ k = (y >>> k) <<< k := by
    rw [Nat.shiftLeft_eq, Nat.shiftRight_eq_div_pow]
    have := Nat.div_add_mod y (2 ^ k)
    rw [Nat.mul_comm] at this
    omega
  rw [hmask, hhigh]
  refine Nat.eq_of_testBit_eq (fun i => ?_)
  simp only [Nat.testBit_and, Nat.testBit_shiftLeft, Nat.testBit_two_pow_sub_one,
    Nat.testBit_shiftRight]
  by_cases hi : k ≤ i
  · rw [decide_eq_true hi, Bool.true_and, Bool.true_and, Nat.add_sub_cancel' hi]
    by_cases hlt : i < w
    · rw [decide_eq_true (show i - k < w - k by omega), Bool.and_true]
    · have : y < 2 ^ i := lt_of_lt_of_le hy (Nat.pow_le_pow_right (by decide) (by omega))
      rw [Nat.testBit_lt_two_pow this, Bool.false_and]
  · rw [decide_eq_false hi, Bool.false_and, Bool.false_and, Bool.and_false]

/-- Two words in the same block of a power of two. -/
theorem xor_and_neg_pow {x y k : Nat} (hx : x < 2 ^ w) (hy : y < 2 ^ w) (hk : k ≤ w) :
    (x ^^^ y) &&& (2 ^ w - 2 ^ k) = 0 ↔ x / 2 ^ k = y / 2 ^ k := by
  have hdiv : (x ^^^ y) / 2 ^ k = (x / 2 ^ k) ^^^ (y / 2 ^ k) := by
    rw [← Nat.shiftRight_eq_div_pow, Nat.shiftRight_xor_distrib, Nat.shiftRight_eq_div_pow,
      Nat.shiftRight_eq_div_pow]
  have hzero : (x ^^^ y) - (x ^^^ y) % 2 ^ k = 0 ↔ (x ^^^ y) / 2 ^ k = 0 := by
    have hsplit := Nat.div_add_mod (x ^^^ y) (2 ^ k)
    have hpos := Nat.two_pow_pos k
    rw [Nat.div_eq_zero_iff]
    refine ⟨fun h => Or.inr (by omega), fun h => ?_⟩
    rw [Nat.mod_eq_of_lt (h.resolve_left hpos.ne'), Nat.sub_self]
  rw [and_neg_pow _ k (Nat.xor_lt_two_pow hx hy) hk, hzero, hdiv, Nat.xor_eq_zero_iff]

section words

variable {x y block : BitVec w} {k : Nat}

theorem toNat_pow_sub_one (hblock : block.toNat = 2 ^ k) : (block - 1#w).toNat = 2 ^ k - 1 := by
  have hpos := Nat.two_pow_pos k
  have hone : (1#w).toNat = 1 := Nat.mod_eq_of_lt (by omega)
  rw [BitVec.toNat_sub, hone, hblock, show 2 ^ w - 1 + 2 ^ k = 2 ^ k - 1 + 2 ^ w by omega,
    Nat.add_mod_right, Nat.mod_eq_of_lt (by omega)]

/-- The low bits of a word are clear when it is a multiple. -/
theorem and_sub_one_eq_zero (hblock : block.toNat = 2 ^ k) :
    x &&& (block - 1#w) = 0#w ↔ 2 ^ k ∣ x.toNat := by
  rw [← BitVec.toNat_inj, BitVec.toNat_and, toNat_pow_sub_one hblock, Nat.and_two_pow_sub_one_eq_mod,
    Nat.dvd_iff_mod_eq_zero]
  rfl

/-- The high bits of two words are the same when they are in one block. -/
theorem xor_and_not_eq_zero (hblock : block.toNat = 2 ^ k) :
    (x ^^^ y) &&& ~~~(block - 1#w) = 0#w ↔ x.toNat / 2 ^ k = y.toNat / 2 ^ k := by
  have hlt : 2 ^ k < 2 ^ w := hblock ▸ block.isLt
  have hpos := Nat.two_pow_pos k
  rw [← BitVec.toNat_inj, BitVec.toNat_and, BitVec.toNat_xor, BitVec.toNat_not,
    toNat_pow_sub_one hblock, show 2 ^ w - 1 - (2 ^ k - 1) = 2 ^ w - 2 ^ k by omega,
    ← xor_and_neg_pow x.isLt y.isLt ((Nat.pow_lt_pow_iff_right (by decide)).mp hlt).le]
  rfl

end words

section blocks

variable {n : Nat}

theorem no_multiple_inside (h : 0 < n) (a s : Nat) :
    (∀ q, ¬ (a < q * n ∧ q * n < a + s)) ↔ ¬ n < a % n + s := by
  have hdiv := Nat.div_add_mod a n
  have hlt := Nat.mod_lt a h
  rw [Nat.mul_comm] at hdiv
  rw [Nat.not_lt]
  constructor
  · intro hno
    by_contra hcon
    refine hno (a / n + 1) ?_
    rw [Nat.add_mul, Nat.one_mul]
    omega
  intro hle q hq
  -- The multiple would have to be the next one, and the range ends before it.
  have hbelow : a / n < q := (Nat.div_lt_iff_lt_mul h).mpr hq.1
  have hnext : (a / n + 1) * n ≤ q * n := Nat.mul_le_mul_right _ hbelow
  rw [Nat.add_mul, Nat.one_mul] at hnext
  omega

theorem next_multiple_le {y N : Nat} (hd : n ∣ N) (hy : y < N) : (y / n + 1) * n ≤ N := by
  rcases hd with ⟨c, rfl⟩
  have hpos : 0 < n := Nat.pos_of_ne_zero (fun h => by rw [h, Nat.zero_mul] at hy; omega)
  rw [Nat.mul_comm n c]
  exact Nat.mul_le_mul_right n ((Nat.div_lt_iff_lt_mul hpos).mpr (by rwa [Nat.mul_comm] at hy))

end blocks

end FreeBSDKern.Lib
