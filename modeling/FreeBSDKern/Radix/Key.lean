import Mathlib

/-!
# Radix Keys

The key arithmetic of the page trie: an index is a 64-bit word read as
sixteen digits of four bits, and a trie node at level `clev` branches on digit
`clev`.

Three functions of the source cut a key up. `vmRadixSlot` reads a digit,
`vmRadixTrimkey` clears every digit below a level, and `vmRadixKeydiff` finds
the highest digit where two keys differ. They are written with shifts and
masks, and the trie's argument never wants to see those again, so everything
is restated through `above`, the number the digits from a level upwards spell.
Two keys agree above a level exactly when those numbers are equal, and
`above_succ` peels one digit off.

The top level is the odd one out. Trimming at level sixteen shifts a 64-bit
word by its full width, which C leaves undefined and the amd64 shift
instructions take modulo 64, so the key comes back whole. The source knows the
result is not meaningful there and never consults it.

## Main definitions

* `vmRadixSlot`: The digit of an index at a level.
* `vmRadixTrimkey`: An index with its digits below a level cleared.
* `vmRadixKeydiff`: The highest level where two indices differ.
* `above`: The number spelled by the digits from a level upwards.

## Theorems

* `above_succ`: Peeling the lowest digit off.
* `above_limit`: Nothing lies above the top level.
* `toNat_trimkey`: Trimming keeps exactly what lies above.
* `keydiff_spec`: The differing level separates the two keys.
-/

namespace FreeBSDKern.Radix

/-- `vm_pindex_t`: a 64-bit page index. -/
abbrev Pindex := BitVec 64

/-- `VM_RADIX_WIDTH`: bits per digit on an LP64 machine. -/
def vmRadixWidth : Nat := 4

/-- There are sixteen digits. -/
scoped instance count_neZero : NeZero 16 := ⟨by decide⟩

/-- `VM_RADIX_COUNT`: children per node. -/
def vmRadixCount : Nat := 16

/-- `VM_RADIX_LIMIT`: the highest level. -/
def vmRadixLimit : Nat := 15

/-- The position in a node's child array for a given level. -/
def vmRadixSlot (index : Pindex) (level : Nat) : Fin 16 :=
  ⟨((index >>> (level * vmRadixWidth)) &&& 15#64).toNat, by
    have h : ((index >>> (level * vmRadixWidth)) &&& 15#64).toNat ≤ 15 := by
      rw [BitVec.toNat_and]
      exact Nat.and_le_right
    omega⟩

/-- Trims the key below the specified level. The shift count is taken modulo
    the word size, as the amd64 shift instructions do. -/
def vmRadixTrimkey (index : Pindex) (level : Nat) : Pindex :=
  if level > 0 then
    (index >>> (level * vmRadixWidth % 64)) <<< (level * vmRadixWidth % 64)
  else index

/-- The downward scan of `vm_radix_keydiff` over an exclusive-or of keys. -/
def keydiffFrom (x : Pindex) : Nat → Nat
  | 0 => 0
  | clev + 1 => if vmRadixSlot x (clev + 1) ≠ 0 then clev + 1 else keydiffFrom x clev

/-- The slot level where two keys differ. It cannot accept two equal keys. -/
def vmRadixKeydiff (index1 index2 : Pindex) : Nat :=
  keydiffFrom (index1 ^^^ index2) vmRadixLimit

/-- The number spelled by the digits of an index from a level upwards. -/
def above (level : Nat) (index : Pindex) : Nat := index.toNat / 16 ^ level

theorem val_slot (index : Pindex) (level : Nat) :
    (vmRadixSlot index level).val = above level index % 16 := by
  have hpow : (2 : Nat) ^ (level * 4) = 16 ^ level := by
    rw [Nat.mul_comm, Nat.pow_mul]
  simp only [vmRadixSlot, above, vmRadixWidth, BitVec.toNat_and, BitVec.toNat_ushiftRight,
    BitVec.toNat_ofNat]
  rw [Nat.shiftRight_eq_div_pow, hpow]
  exact Nat.and_two_pow_sub_one_eq_mod _ 4

/-- Peeling the lowest digit off the digits above a level. -/
theorem above_succ (level : Nat) (index : Pindex) :
    above level index = above (level + 1) index * 16 + (vmRadixSlot index level).val := by
  rw [val_slot]
  have hdiv : above (level + 1) index = above level index / 16 := by
    rw [above, above, Nat.pow_succ, Nat.div_div_eq_div_mul]
  rw [hdiv]
  omega

/-- A 64-bit key has no digits above the sixteenth. -/
theorem above_limit (index : Pindex) : above 16 index = 0 := by
  rw [above]
  exact Nat.div_eq_of_lt (by have := index.isLt; simpa using this)

/-- The digits above a higher level are a prefix of those above a lower. -/
theorem above_add (level d : Nat) (index : Pindex) :
    above (level + d) index = above level index / 16 ^ d := by
  rw [above, above, Nat.pow_add, Nat.div_div_eq_div_mul]

theorem above_zero_inj (a b : Pindex) (h : above 0 a = above 0 b) : a = b := by
  simp only [above, Nat.pow_zero, Nat.div_one] at h
  exact BitVec.eq_of_toNat_eq h

/-- Below the top, trimming a key keeps what lies above the level and clears
    the rest. -/
theorem toNat_trimkey (index : Pindex) (level : Nat) (hlev : level ≤ vmRadixLimit) :
    (vmRadixTrimkey index level).toNat = above level index * 16 ^ level := by
  have hpow : (2 : Nat) ^ (level * 4) = 16 ^ level := by
    rw [Nat.mul_comm, Nat.pow_mul]
  rw [vmRadixTrimkey]
  split
  · have hmod : level * vmRadixWidth % 64 = level * 4 := by
      rw [vmRadixWidth, Nat.mod_eq_of_lt]
      rw [vmRadixLimit] at hlev
      omega
    rw [hmod, BitVec.toNat_shiftLeft, BitVec.toNat_ushiftRight, Nat.shiftRight_eq_div_pow,
      Nat.shiftLeft_eq, hpow, Nat.mod_eq_of_lt]
    · rfl
    · exact lt_of_le_of_lt (Nat.div_mul_le_self _ _) index.isLt
  · have hz : level = 0 := by omega
    rw [hz, above, Nat.pow_zero, Nat.div_one, Nat.mul_one]

/-- The digits of an exclusive-or vanish exactly where the keys agree. -/
theorem slot_xor_eq_zero (a b : Pindex) (level : Nat) :
    vmRadixSlot (a ^^^ b) level = 0 ↔ vmRadixSlot a level = vmRadixSlot b level := by
  have hxor : (a ^^^ b) >>> (level * vmRadixWidth) &&& 15#64
      = (a >>> (level * vmRadixWidth) &&& 15#64) ^^^ (b >>> (level * vmRadixWidth) &&& 15#64) := by
    rw [BitVec.ushiftRight_xor_distrib]
    ext i
    simp only [BitVec.getElem_and, BitVec.getElem_xor]
    rw [Bool.and_xor_distrib_right]
  rw [Fin.ext_iff, Fin.ext_iff]
  simp only [vmRadixSlot, hxor, Fin.val_zero]
  rw [BitVec.toNat_inj, ← BitVec.xor_eq_zero_iff, ← BitVec.toNat_inj]
  rfl

/-- What the scan returns: the two keys agree above it, and differ at it
    unless it ran all the way down. -/
theorem keydiffFrom_spec (a b : Pindex) : ∀ n, above (n + 1) a = above (n + 1) b → a ≠ b →
      keydiffFrom (a ^^^ b) n ≤ n ∧
      above (keydiffFrom (a ^^^ b) n + 1) a = above (keydiffFrom (a ^^^ b) n + 1) b ∧
      vmRadixSlot a (keydiffFrom (a ^^^ b) n) ≠ vmRadixSlot b (keydiffFrom (a ^^^ b) n) := by
  intro n
  induction n with
  | zero =>
    intro hab hne
    simp only [keydiffFrom]
    refine ⟨le_refl _, hab, fun hslot => hne (above_zero_inj a b ?_)⟩
    rw [above_succ, above_succ 0 b, hab, hslot]
  | succ k ih =>
    intro hab hne
    simp only [keydiffFrom]
    by_cases hs : vmRadixSlot (a ^^^ b) (k + 1) = 0
    · -- The digits agree here, so the keys still agree one level down.
      rw [if_neg (by simpa using hs)]
      have hdig := (slot_xor_eq_zero a b (k + 1)).mp hs
      have hab' : above (k + 1) a = above (k + 1) b := by
        rw [above_succ, above_succ (k + 1) b, hab, hdig]
      rcases ih hab' hne with ⟨hle, hup, hdiff⟩
      exact ⟨by omega, hup, hdiff⟩
    · rw [if_pos hs]
      exact ⟨le_refl _, hab, fun hdig => hs ((slot_xor_eq_zero a b (k + 1)).mpr hdig)⟩

/-- The differing level of two distinct keys: they agree above it and take
    different slots at it. -/
theorem keydiff_spec (a b : Pindex) (hne : a ≠ b) : vmRadixKeydiff a b ≤ 15 ∧
    above (vmRadixKeydiff a b + 1) a = above (vmRadixKeydiff a b + 1) b ∧
    vmRadixSlot a (vmRadixKeydiff a b) ≠ vmRadixSlot b (vmRadixKeydiff a b) :=
  keydiffFrom_spec a b 15 (by rw [above_limit, above_limit]) hne

/-- Keys that agree above some level differ below it. -/
theorem keydiff_lt (a b : Pindex) (hne : a ≠ b) (level : Nat)
    (h : above level a = above level b) : vmRadixKeydiff a b < level := by
  rcases keydiff_spec a b hne with ⟨-, -, hdiff⟩
  by_contra hc
  refine hdiff (Fin.ext ?_)
  rw [val_slot, val_slot, show vmRadixKeydiff a b = level + (vmRadixKeydiff a b - level) by omega,
    above_add, above_add, h]

/-- Keys that disagree above some level differ at it or higher. -/
theorem le_keydiff (a b : Pindex) (level : Nat)
    (h : above level a ≠ above level b) : level ≤ vmRadixKeydiff a b := by
  have hne : a ≠ b := fun hab => h (by rw [hab])
  rcases keydiff_spec a b hne with ⟨-, hup, -⟩
  by_contra hc
  refine h ?_
  have hlev : level = vmRadixKeydiff a b + 1 + (level - (vmRadixKeydiff a b + 1)) := by omega
  rw [hlev, above_add _ _ a, above_add _ _ b, hup]

end FreeBSDKern.Radix
