import FreeBSDKern.Radix.Nearest

/-!
# Positions along a Direction

A lookup walks the indices in one direction. `Lawful d pos` says that `pos` numbers
them in that direction, and what each expression of `d` does to the number: an
aligned key is rounded down, an advance adds a unit, a barrier that turns a key away
gives the first position of its node. What follows about the loop is said in
positions and holds for both lookups.

Upwards the position of an index is the index, downwards it is what is left to the
last index. Rounding down in the second sense is filling the low bits with ones.

## Main definitions

* `Lawful`: A numbering of the indices that fits a direction.

## Theorems

* `lawful_upwards`: For `vm_radix_lookup_ge`.
* `lawful_downwards`: For `vm_radix_lookup_le`.
-/

namespace FreeBSDKern.Radix

/-- `pos` numbers the indices in the direction of `d`, and the expressions of `d` are
    what they should be. -/
structure Lawful (d : Direction) (pos : Pindex → Nat) : Prop where
  inj : ∀ i j, pos i = pos j → i = j
  reaches : ∀ m i, d.reaches m i = true ↔ pos i ≤ pos m
  above : ∀ c i j, c ≤ 16 → (above c i = above c j ↔ pos i / 16 ^ c = pos j / 16 ^ c)
  last : ∀ c i, c ≤ 15 → (vmRadixSlot i c = d.lastSlot ↔ pos i / 16 ^ c % 16 = 15)
  left : ∀ c i, c ≤ 15 → d.left (vmRadixSlot i c) = 15 - pos i / 16 ^ c % 16
  next : ∀ c i j, c ≤ 15 → pos i / 16 ^ c % 16 < 15 → pos j / 16 ^ c = pos i / 16 ^ c + 1 →
    vmRadixSlot j c = d.nextSlot (vmRadixSlot i c)
  align : ∀ c i, c ≤ 15 → pos (d.align i c) = pos i / 16 ^ c * 16 ^ c
  advance : ∀ c i, c ≤ 15 → pos i / 16 ^ c % 16 < 15 →
    ∃ j, d.advance i c = some j ∧ pos j = pos i + 16 ^ c
  resume : ∀ c i, c ≤ 15 → pos i / 16 ^ c % 16 < 15 →
    ∃ j, d.resume i c = some j ∧ pos j = pos i / 16 ^ c * 16 ^ c + 16 ^ c
  enter : ∀ c owner q i, c < 15 → owner.toNat = q * 16 ^ (c + 1) → Radix.above (c + 1) i ≠ q →
    (d.enter owner c i = some none ∧ ∀ j, Radix.above (c + 1) j = q → pos j < pos i) ∨
    ∃ i', d.enter owner c i = some (some i') ∧ Radix.above (c + 1) i' = q ∧
      ∀ j, Radix.above (c + 1) j = q → pos i ≤ pos j ∧ pos i' ≤ pos j

theorem toNat_unitlevel (c : Nat) (hc : c ≤ 15) : (vmRadixUnitlevel c).toNat = 16 ^ c := by
  have hpow : (16 : Nat) ^ c = 2 ^ (c * 4) := by
    rw [Nat.mul_comm, Nat.pow_mul]
  have hlt : (2 : Nat) ^ (c * 4) < 2 ^ 64 := Nat.pow_lt_pow_right (by omega) (by omega)
  rw [vmRadixUnitlevel, vmRadixWidth, BitVec.toNat_shiftLeft, Nat.shiftLeft_eq, hpow]
  simp only [BitVec.toNat_ofNat, Nat.one_mod, Nat.one_mul]
  exact Nat.mod_eq_of_lt hlt

theorem addIndex_eq_some (a b : Pindex) (h : a.toNat + b.toNat < 2 ^ 64) :
    ∃ r, addIndex a b = some r ∧ r.toNat = a.toNat + b.toNat := by
  refine ⟨a + b, if_pos h, ?_⟩
  rw [BitVec.toNat_add, Nat.mod_eq_of_lt h]

theorem subIndex_eq_some (a b : Pindex) (h : b.toNat ≤ a.toNat) :
    ∃ r, subIndex a b = some r ∧ r.toNat = a.toNat - b.toNat := by
  refine ⟨a - b, if_pos h, ?_⟩
  exact BitVec.toNat_sub_of_le h

-- The position of a slot and what lies under it fit the word as long as the digit
-- is not the last one.
theorem floor_add_lt (x c : Nat) (hc : c ≤ 15) (hx : x < 2 ^ 64) (hd : x / 16 ^ c % 16 < 15) :
    x + 16 ^ c < 2 ^ 64 := by
  have hpos : 0 < 16 ^ c := Nat.pow_pos (by omega)
  have hword : (2 : Nat) ^ 64 = 16 ^ (15 - c) * 16 * 16 ^ c := by
    rw [← Nat.pow_succ, ← Nat.pow_add, show 15 - c + 1 + c = 16 by omega]
    rfl
  have hq : x / 16 ^ c < 16 ^ (15 - c) * 16 := by
    rw [Nat.div_lt_iff_lt_mul hpos, ← hword]
    exact hx
  have hq' : x / 16 ^ c + 1 < 16 ^ (15 - c) * 16 := by omega
  have hx' : x < (x / 16 ^ c + 1) * 16 ^ c := Nat.lt_mul_of_div_lt (by omega) hpos
  calc x + 16 ^ c < (x / 16 ^ c + 1) * 16 ^ c + 16 ^ c := by omega
    _ = (x / 16 ^ c + 1 + 1) * 16 ^ c := by rw [Nat.add_mul (_ + 1), Nat.one_mul]
    _ ≤ 16 ^ (15 - c) * 16 * 16 ^ c := Nat.mul_le_mul_right _ hq'
    _ = 2 ^ 64 := hword.symm

theorem above_lt_pow (c : Nat) (hc : c ≤ 16) (i : Pindex) : above c i < 16 ^ (16 - c) := by
  rw [above, Nat.div_lt_iff_lt_mul (Nat.pow_pos (by omega)), ← Nat.pow_add,
    show 16 - c + c = 16 by omega]
  exact i.isLt

theorem val_slot_eq (i : Pindex) (c : Nat) : (vmRadixSlot i c).val = i.toNat / 16 ^ c % 16 :=
  val_slot i c

/-- `vm_radix_lookup_ge` walks the indices as they are numbered. -/
theorem lawful_upwards : Lawful upwards BitVec.toNat where
  inj i j h := BitVec.eq_of_toNat_eq h
  reaches m i := by
    simp only [upwards, decide_eq_true_eq, BitVec.le_def]
  above c i j _ := Iff.rfl
  last c i _ := by
    rw [Fin.ext_iff, val_slot_eq]
    rfl
  left c i _ := by
    simp only [upwards, val_slot_eq]
  next c i j _ hd hj := by
    apply Fin.ext
    simp only [upwards, Fin.val_add, val_slot_eq, hj]
    omega
  align c i hc := toNat_trimkey i c (by rw [vmRadixLimit]; omega)
  advance c i hc hd := by
    have hunit := toNat_unitlevel c hc
    have hfit := floor_add_lt i.toNat c hc i.isLt hd
    rw [← hunit] at hfit ⊢
    exact addIndex_eq_some i _ hfit
  resume c i hc hd := by
    have hunit := toNat_unitlevel c hc
    have htrim := toNat_trimkey i c (by rw [vmRadixLimit]; omega)
    have hfit := floor_add_lt i.toNat c hc i.isLt hd
    have hle : above c i * 16 ^ c ≤ i.toNat := Nat.div_mul_le_self _ _
    rcases addIndex_eq_some (vmRadixTrimkey i c) (vmRadixUnitlevel c)
      (by rw [htrim, hunit]; omega) with ⟨j, hj, hval⟩
    exact ⟨j, hj, by rw [hval, htrim, hunit, above]⟩
  enter c owner q i hc hown hq := by
    have hpos : 0 < 16 ^ (c + 1) := Nat.pow_pos (by omega)
    have hfloor : ∀ j, Radix.above (c + 1) j = q → owner.toNat ≤ j.toNat := by
      intro j hj
      rw [hown, ← hj]
      exact Nat.div_mul_le_self _ _
    by_cases hlt : owner < i
    · -- The key is past the node: everything there has a smaller prefix.
      refine Or.inl ⟨if_pos hlt, fun j hj => ?_⟩
      by_contra hle
      have h1 : Radix.above (c + 1) i ≤ Radix.above (c + 1) j :=
        Nat.div_le_div_right (not_lt.mp hle)
      have h2 : Radix.above (c + 1) owner ≤ Radix.above (c + 1) i :=
        Nat.div_le_div_right (le_of_lt hlt)
      have h3 : Radix.above (c + 1) owner = q := by
        rw [Radix.above, hown, Nat.mul_div_cancel _ hpos]
      omega
    refine Or.inr ⟨owner, if_neg hlt, ?_, fun j hj => ⟨?_, hfloor j hj⟩⟩
    · rw [Radix.above, hown, Nat.mul_div_cancel _ hpos]
    · exact le_trans (not_lt.mp hlt) (hfloor j hj)

/-- The number of indices beyond this one. -/
def toLast (i : Pindex) : Nat := 2 ^ 64 - 1 - i.toNat

theorem word_eq (c : Nat) (hc : c ≤ 16) : (2 : Nat) ^ 64 = 16 ^ (16 - c) * 16 ^ c := by
  rw [← Nat.pow_add, show 16 - c + c = 16 by omega]
  rfl

-- Counted from the other end, a prefix is what is left of the prefixes.
theorem toLast_div (c : Nat) (hc : c ≤ 16) (i : Pindex) :
    toLast i / 16 ^ c = 16 ^ (16 - c) - 1 - i.toNat / 16 ^ c := by
  have hpos : 0 < 16 ^ c := Nat.pow_pos (by omega)
  have hlt := above_lt_pow c hc i
  rw [above] at hlt
  have hmul := Nat.div_add_mod i.toNat (16 ^ c)
  rw [Nat.mul_comm] at hmul
  have hsub : (16 ^ (16 - c) - 1 - i.toNat / 16 ^ c) * 16 ^ c
      = 2 ^ 64 - 16 ^ c - i.toNat / 16 ^ c * 16 ^ c := by
    rw [Nat.sub_mul, Nat.sub_mul, ← word_eq c hc, Nat.one_mul]
  have hroom : (i.toNat / 16 ^ c + 1) * 16 ^ c ≤ 2 ^ 64 := by
    rw [word_eq c hc]
    exact Nat.mul_le_mul_right _ hlt
  rw [Nat.add_mul, Nat.one_mul] at hroom
  rw [toLast, Nat.div_eq_iff hpos]
  omega

theorem toLast_digit (c : Nat) (hc : c ≤ 15) (i : Pindex) :
    toLast i / 16 ^ c % 16 = 15 - i.toNat / 16 ^ c % 16 := by
  have hlt := above_lt_pow c (by omega) i
  have hpow : 16 ^ (16 - c) = 16 ^ (15 - c) * 16 := by
    rw [← Nat.pow_succ, show (15 - c).succ = 16 - c by omega]
  rw [toLast_div c (by omega) i]
  rw [above] at hlt
  omega

-- The floor from the other end is the ceiling.
theorem toLast_floor (c : Nat) (hc : c ≤ 16) (i : Pindex) :
    toLast i / 16 ^ c * 16 ^ c + 16 ^ c + i.toNat / 16 ^ c * 16 ^ c = 2 ^ 64 := by
  have hlt := above_lt_pow c hc i
  rw [above] at hlt
  rw [toLast_div c hc i, word_eq c hc, ← Nat.succ_mul, ← Nat.add_mul]
  congr 1
  omega

theorem or_unit_sub_one (x k : Nat) : x ||| (2 ^ k - 1) = x / 2 ^ k * 2 ^ k + (2 ^ k - 1) := by
  have hpos : 0 < 2 ^ k := Nat.pow_pos (by omega)
  rw [Nat.mul_comm, Nat.two_pow_add_eq_or_of_lt (by omega)]
  apply Nat.eq_of_testBit_eq
  intro b
  simp only [Nat.testBit_or, Nat.testBit_two_pow_mul, Nat.testBit_two_pow_sub_one,
    Nat.testBit_div_two_pow]
  by_cases hb : b < k
  · simp [hb]
  · simp [hb, Nat.sub_add_cancel (not_lt.mp hb), not_lt.mp hb]

theorem toNat_fill (i : Pindex) (c : Nat) (hc : c ≤ 15) :
    (i ||| (vmRadixUnitlevel c - 1#64)).toNat = i.toNat / 16 ^ c * 16 ^ c + (16 ^ c - 1) := by
  have hpow : (16 : Nat) ^ c = 2 ^ (4 * c) := (Nat.pow_mul 2 4 c).symm
  have hone : (1#64).toNat ≤ (vmRadixUnitlevel c).toNat := by
    rw [toNat_unitlevel c hc]
    exact Nat.pow_pos (by omega)
  rw [BitVec.toNat_or, BitVec.toNat_sub_of_le hone, toNat_unitlevel c hc, hpow]
  exact or_unit_sub_one i.toNat (4 * c)

/-- `vm_radix_lookup_le` walks the indices from the last one down. -/
theorem lawful_downwards : Lawful downwards toLast where
  inj i j h := by
    apply BitVec.eq_of_toNat_eq
    have hi := i.isLt
    have hj := j.isLt
    rw [toLast, toLast] at h
    omega
  reaches m i := by
    have hi := i.isLt
    have hm := m.isLt
    simp only [downwards, decide_eq_true_eq, BitVec.le_def, toLast]
    omega
  above c i j hc := by
    have hi := above_lt_pow c hc i
    have hj := above_lt_pow c hc j
    rw [toLast_div c hc, toLast_div c hc]
    rw [above] at hi hj ⊢
    rw [above]
    omega
  last c i hc := by
    rw [Fin.ext_iff, val_slot_eq, toLast_digit c hc]
    simp only [downwards, Fin.val_zero]
    omega
  left c i hc := by
    rw [toLast_digit c hc]
    simp only [downwards, val_slot_eq]
    omega
  next c i j hc hd hj := by
    have hi := above_lt_pow c (by omega) i
    have hj' := above_lt_pow c (by omega) j
    rw [toLast_digit c hc] at hd
    rw [toLast_div c (by omega), toLast_div c (by omega)] at hj
    rw [above] at hi hj'
    apply Fin.ext
    simp only [downwards, Fin.sub_def, val_slot_eq, Fin.val_one]
    omega
  align c i hc := by
    have hfloor := toLast_floor c (by omega) i
    have hpos : 0 < 16 ^ c := Nat.pow_pos (by omega)
    simp only [downwards]
    rw [toLast, toNat_fill i c hc]
    omega
  advance c i hc hd := by
    have hunit := toNat_unitlevel c hc
    have hi := i.isLt
    rw [toLast_digit c hc] at hd
    have hq : 1 ≤ i.toNat / 16 ^ c := Nat.pos_of_ne_zero (fun h => by rw [h] at hd; omega)
    have hle : 16 ^ c ≤ i.toNat := by
      rw [Nat.le_div_iff_mul_le (Nat.pow_pos (by omega)), Nat.one_mul] at hq
      exact hq
    rcases subIndex_eq_some i (vmRadixUnitlevel c) (by rw [hunit]; exact hle) with ⟨j, hj, hval⟩
    refine ⟨j, hj, ?_⟩
    rw [toLast, toLast, hval, hunit]
    omega
  resume c i hc hd := by
    have htrim := toNat_trimkey i c (by rw [vmRadixLimit]; omega)
    have hfloor := toLast_floor c (by omega) i
    have hpos : 0 < 16 ^ c := Nat.pow_pos (by omega)
    have hle : i.toNat / 16 ^ c * 16 ^ c ≤ i.toNat := Nat.div_mul_le_self _ _
    have hi := i.isLt
    rw [above] at htrim
    rw [toLast_digit c hc] at hd
    have hone : 16 ^ c ≤ i.toNat / 16 ^ c * 16 ^ c :=
      Nat.le_mul_of_pos_left _ (Nat.pos_of_ne_zero (fun h => by rw [h] at hd; omega))
    rcases subIndex_eq_some (vmRadixTrimkey i c) 1#64
      (by rw [htrim]; simp only [BitVec.toNat_ofNat]; omega) with ⟨j, hj, hval⟩
    refine ⟨j, hj, ?_⟩
    rw [toLast, hval, htrim]
    simp only [BitVec.toNat_ofNat]
    omega
  enter c owner q i hc hown hq := by
    have hpos : 0 < 16 ^ (c + 1) := Nat.pow_pos (by omega)
    have hwhole : (16#64 * vmRadixUnitlevel c).toNat = 16 ^ (c + 1) := by
      have hlt : 16 ^ (c + 1) < 2 ^ 64 := by
        rw [show (2 : Nat) ^ 64 = 16 ^ 16 from rfl]
        exact Nat.pow_lt_pow_right (by omega) (by omega)
      rw [BitVec.toNat_mul, toNat_unitlevel c (by omega)]
      have h16 : 16 ^ (c + 1) = 16 * 16 ^ c := Nat.pow_succ'
      rw [h16] at hlt ⊢
      exact Nat.mod_eq_of_lt hlt
    have hi := i.isLt
    have hin : ∀ j, Radix.above (c + 1) j = q →
        q * 16 ^ (c + 1) ≤ j.toNat ∧ j.toNat < (q + 1) * 16 ^ (c + 1) := by
      intro j hj
      rw [← hj]
      exact ⟨Nat.div_mul_le_self _ _, Nat.lt_mul_of_div_lt (Nat.lt_succ_self _) hpos⟩
    have hout : i.toNat < q * 16 ^ (c + 1) ∨ (q + 1) * 16 ^ (c + 1) ≤ i.toNat := by
      rcases Nat.lt_or_gt_of_ne hq with h | h
      · exact Or.inl ((Nat.div_lt_iff_lt_mul hpos).mp h)
      · exact Or.inr ((Nat.le_div_iff_mul_le hpos).mp h)
    have hnext : (q + 1) * 16 ^ (c + 1) = q * 16 ^ (c + 1) + 16 ^ (c + 1) := Nat.succ_mul _ _
    by_cases hlt : owner < i
    · have hge : (q + 1) * 16 ^ (c + 1) ≤ i.toNat := by
        rcases hout with h | h
        · rw [BitVec.lt_def, hown] at hlt
          omega
        · exact h
      rcases addIndex_eq_some owner (16#64 * vmRadixUnitlevel c) (by rw [hown, hwhole]; omega)
        with ⟨e, he, heval⟩
      rcases subIndex_eq_some e 1#64
        (by rw [heval, hwhole]; simp only [BitVec.toNat_ofNat]; omega) with ⟨i', hi', hval⟩
      simp only [BitVec.toNat_ofNat] at hval
      rw [heval, hown, hwhole] at hval
      refine Or.inr ⟨i', ?_, ?_, fun j hj => ?_⟩
      · simp only [downwards, if_pos hlt, he, Option.bind_some, hi', Option.map_some]
      · rw [Radix.above, Nat.div_eq_iff hpos]
        omega
      have hj' := hin j hj
      rw [toLast, toLast, toLast]
      omega
    refine Or.inl ⟨if_neg hlt, fun j hj => ?_⟩
    have hj' := hin j hj
    rw [BitVec.lt_def, hown] at hlt
    rw [toLast, toLast]
    omega

end FreeBSDKern.Radix
