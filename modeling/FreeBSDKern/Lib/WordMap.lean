import Mathlib

/-!
# Bitmaps Kept in Machine Words

A set of numbers kept as a list of words: number `i` is bit `i % w` of word
`i / w`, and the words after the last stored one read as zero. A search of such
a map works a word at a time with the two bit scan instructions and masks off
the part of a word it must not look at, so what is needed is the meaning of the
scans, of the two masks, and of writing one bit.

## Main definitions

* `bit`: Whether a number is in the map.
* `ffs`, `fls`: The bit scans, counting from one and zero on an empty word.
* `lowMask`, `highMask`: The bits of a word below and from a position.
* `setBit`, `clearBit`: The map with one number added or taken out.
* `population`: How many numbers of a range are in the map.

## Theorems

* `ffs_spec`, `ffs_eq_zero_iff`, `fls_spec`: Where the scans of a non-empty word stop.
* `ffs_reads`: What a scan from below finds of a longer map.
* `bit_setBit`, `bit_clearBit`: Writing one bit changes that bit alone.
* `bit_append_zeros`: A map that grew holds what it held.
* `population_add`: A range is counted one part after the other.
* `population_setBit`, `population_clearBit`: Writing one bit, counted.
-/

namespace FreeBSDKern.Lib

namespace WordMap

variable {w : Nat}

/-- The word at an offset. -/
def word (map : List (BitVec w)) (off : Nat) : BitVec w := map.getD off 0#w

/-- Whether a number is in the map. -/
def bit (map : List (BitVec w)) (i : Nat) : Bool := (word map (i / w)).getLsbD (i % w)

/-- One more than the lowest set bit, zero if there is none. -/
def ffs (x : BitVec w) : Nat := ((List.range w).find? x.getLsbD).elim 0 (· + 1)

/-- One more than the highest set bit, zero if there is none. -/
def fls (x : BitVec w) : Nat := ((List.range w).reverse.find? x.getLsbD).elim 0 (· + 1)

/-- The bits below position `n`. -/
def lowMask (w n : Nat) : BitVec w := ~~~((BitVec.allOnes w) <<< n)

/-- The bits from position `n` on. -/
def highMask (w n : Nat) : BitVec w := ~~~((BitVec.allOnes w) >>> (w - n))

def setBit (map : List (BitVec w)) (i : Nat) : List (BitVec w) :=
  map.set (i / w) (word map (i / w) ||| (1#w <<< (i % w)))

def clearBit (map : List (BitVec w)) (i : Nat) : List (BitVec w) :=
  map.set (i / w) (word map (i / w) &&& ~~~(1#w <<< (i % w)))

variable (x : BitVec w) (map : List (BitVec w)) (a n i j : Nat)

theorem exists_bit_of_ne_zero (h : x ≠ 0#w) : ∃ k, k < w ∧ x.getLsbD k = true := by
  by_contra hnone
  refine h (BitVec.eq_of_getLsbD_eq (fun k hk => ?_))
  rw [BitVec.getLsbD_zero]
  cases hbit : x.getLsbD k with
  | true => exact absurd ⟨k, hk, hbit⟩ hnone
  | false => rfl

/-- The scan from below stops at the lowest set bit. -/
theorem ffs_spec (h : x ≠ 0#w) :
    ∃ k, k < w ∧ ffs x = k + 1 ∧ x.getLsbD k = true ∧ ∀ j, j < k → x.getLsbD j = false := by
  rcases exists_bit_of_ne_zero x h with ⟨m, hm, hbit⟩
  have hex : ∃ k, x.getLsbD k = true := ⟨m, hbit⟩
  have hle : Nat.find hex ≤ m := Nat.find_min' hex hbit
  refine ⟨Nat.find hex, by omega, ?_, Nat.find_spec hex, fun j hj => ?_⟩
  · have hfind : (List.range w).find? x.getLsbD = some (Nat.find hex) := by
      rw [List.find?_range_eq_some]
      refine ⟨Nat.find_spec hex, List.mem_range.mpr (by omega), fun j hj => ?_⟩
      simpa using Nat.find_min hex hj
    rw [ffs, hfind]
    rfl
  · simpa using Nat.find_min hex hj

theorem ffs_eq_zero_iff : ffs x = 0 ↔ x = 0#w := by
  constructor
  · intro h
    by_contra hne
    rcases ffs_spec x hne with ⟨k, -, hk, -⟩
    omega
  intro h
  have hnone : (List.range w).find? x.getLsbD = none := by
    rw [List.find?_eq_none]
    intro k _
    simp [h]
  rw [ffs, hnone]
  rfl

/-- The scan from below of a word that stands for the `w` places from `a` on finds
    the first of them that is set. -/
theorem ffs_reads {f : Nat → Bool} (hx : ∀ k, k < w → x.getLsbD k = f (a + k)) :
    (ffs x = 0 ∧ ∀ q, a ≤ q → q < a + w → f q = false) ∨
      ∃ k, k < w ∧ ffs x = k + 1 ∧ f (a + k) = true ∧ ∀ q, a ≤ q → q < a + k → f q = false := by
  by_cases hzero : x = 0#w
  · refine .inl ⟨(ffs_eq_zero_iff x).mpr hzero, fun q hlo hhi => ?_⟩
    rw [← Nat.add_sub_cancel' hlo, ← hx _ (by omega), hzero, BitVec.getLsbD_zero]
  rcases ffs_spec x hzero with ⟨k, hk, hffs, hbit, hbelow⟩
  refine .inr ⟨k, hk, hffs, (hx k hk).symm.trans hbit, fun q hlo hhi => ?_⟩
  rw [← Nat.add_sub_cancel' hlo, ← hx _ (by omega)]
  exact hbelow _ (by omega)

/-- The scan from above stops at the highest set bit. -/
theorem fls_spec (h : x ≠ 0#w) :
    ∃ k, k < w ∧ fls x = k + 1 ∧ x.getLsbD k = true ∧ ∀ j, k < j → x.getLsbD j = false := by
  rcases exists_bit_of_ne_zero x h with ⟨m, hm, hbit⟩
  cases hfind : (List.range w).reverse.find? x.getLsbD with
  | none =>
    have hall := List.find?_eq_none.mp hfind m (by simpa using hm)
    exact absurd hbit hall
  | some k =>
    rcases List.find?_eq_some_iff_append.mp hfind with ⟨hk, as, bs, hsplit, has⟩
    have hrange : List.range w = bs.reverse ++ k :: as.reverse := by
      have := congrArg List.reverse hsplit
      simpa using this
    have hmem : k ∈ List.range w := by simp [hrange]
    refine ⟨k, List.mem_range.mp hmem, by rw [fls, hfind]; rfl, hk, fun j hj => ?_⟩
    by_cases hjw : j < w
    · -- The numbers scanned before `k` are those above it.
      have hjmem : j ∈ List.range w := List.mem_range.mpr hjw
      have hsorted : (List.range w).Pairwise (· < ·) := List.pairwise_lt_range
      rw [hrange] at hjmem hsorted
      rcases List.mem_append.mp hjmem with hb | hc
      · have := (List.pairwise_append.mp hsorted).2.2 j hb k List.mem_cons_self
        omega
      rcases List.mem_cons.mp hc with rfl | ha
      · omega
      · simpa using has j (List.mem_reverse.mp ha)
    · exact BitVec.getLsbD_of_ge x j (by omega)

theorem getLsbD_lowMask (hj : j < w) : (lowMask w n).getLsbD j = decide (j < n) := by
  simp only [lowMask, BitVec.getLsbD_not, BitVec.getLsbD_shiftLeft, BitVec.getLsbD_allOnes, hj,
    decide_true, Bool.true_and]
  by_cases h : j < n
  · simp [h]
  · simp [h, show j - n < w by omega]

theorem getLsbD_highMask (hn : n ≤ w) (hj : j < w) : (highMask w n).getLsbD j = decide (n ≤ j) := by
  simp only [highMask, BitVec.getLsbD_not, BitVec.getLsbD_ushiftRight, BitVec.getLsbD_allOnes, hj,
    decide_true, Bool.true_and]
  by_cases h : n ≤ j
  · simp [h, show ¬ w - n + j < w by omega]
  · simp [h, show w - n + j < w by omega]

theorem bit_mul_add (off k : Nat) (hk : k < w) :
    bit map (off * w + k) = (word map off).getLsbD k := by
  have hdiv : (off * w + k) / w = off := by
    rw [Nat.mul_comm, Nat.mul_add_div (by omega), Nat.div_eq_of_lt hk, Nat.add_zero]
  have hmod : (off * w + k) % w = k := by rw [Nat.mul_add_mod_self_right, Nat.mod_eq_of_lt hk]
  rw [bit, hdiv, hmod]

theorem bit_of_length_le (h : map.length ≤ i / w) : bit map i = false := by
  rw [bit, word, List.getD_eq_getElem?_getD, List.getElem?_eq_none h, Option.getD_none,
    BitVec.getLsbD_zero]

theorem getLsbD_one_shiftLeft (k j : Nat) (hk : k < w) :
    ((1#w) <<< k).getLsbD j = decide (j = k) := by
  rw [← BitVec.twoPow_eq, BitVec.getLsbD_twoPow]
  by_cases h : j = k
  · simp [h, hk]
  · simp [h, Ne.symm h]

theorem word_set (off : Nat) (x : BitVec w) (h : off < map.length) (j : Nat) :
    word (map.set off x) j = if j = off then x else word map j := by
  simp only [word, List.getD_eq_getElem?_getD, List.getElem?_set]
  by_cases hj : off = j
  · subst hj
    simp [h]
  · simp [hj, Ne.symm hj]

theorem eq_of_div_mod (hdiv : j / w = i / w) (hmod : j % w = i % w) : j = i := by
  rw [← Nat.div_add_mod j w, ← Nat.div_add_mod i w, hdiv, hmod]

/-- Adding a number adds that number alone. -/
theorem bit_setBit (hw : 0 < w) (h : i / w < map.length) :
    bit (setBit map i) j = (decide (j = i) || bit map j) := by
  rw [bit, setBit, word_set map _ _ h]
  by_cases hdiv : j / w = i / w
  · rw [if_pos hdiv, BitVec.getLsbD_or, getLsbD_one_shiftLeft _ _ (Nat.mod_lt i hw)]
    by_cases hmod : j % w = i % w
    · simp [eq_of_div_mod i j hdiv hmod]
    · have hne : j ≠ i := fun he => hmod (by rw [he])
      simp [hmod, hne, bit, hdiv]
  · have hne : j ≠ i := fun he => hdiv (by rw [he])
    simp [hdiv, hne, bit]

/-- Taking a number out takes out that number alone. -/
theorem bit_clearBit (hw : 0 < w) (h : i / w < map.length) :
    bit (clearBit map i) j = (!decide (j = i) && bit map j) := by
  rw [bit, clearBit, word_set map _ _ h]
  by_cases hdiv : j / w = i / w
  · rw [if_pos hdiv, BitVec.getLsbD_and, BitVec.getLsbD_not,
      getLsbD_one_shiftLeft _ _ (Nat.mod_lt i hw)]
    by_cases hmod : j % w = i % w
    · simp [eq_of_div_mod i j hdiv hmod]
    · have hne : j ≠ i := fun he => hmod (by rw [he])
      simp [hmod, hne, bit, hdiv, Nat.mod_lt j hw]
  · have hne : j ≠ i := fun he => hdiv (by rw [he])
    simp [hdiv, hne, bit]

@[simp] theorem length_setBit : (setBit map i).length = map.length := List.length_set

@[simp] theorem length_clearBit : (clearBit map i).length = map.length := List.length_set

theorem bit_append_zeros : bit (map ++ List.replicate n 0#w) i = bit map i := by
  have hword : word (map ++ List.replicate n 0#w) (i / w) = word map (i / w) := by
    simp only [word, List.getD_eq_getElem?_getD, List.getElem?_append, List.getElem?_replicate]
    by_cases hlt : i / w < map.length
    · simp [hlt]
    rw [if_neg hlt, List.getElem?_eq_none (not_lt.mp hlt)]
    split
    all_goals rfl
  rw [bit, bit, hword]

/-- How many of the `n` numbers from `a` on are in the map. -/
def population (map : List (BitVec w)) (a n : Nat) : Nat := (List.range' a n).countP (bit map)

theorem population_add (m n : Nat) :
    population map a (m + n) = population map a m + population map (a + m) n := by
  rw [population, population, population, ← List.range'_append_1, List.countP_append]

theorem population_one : population map a 1 = if bit map a then 1 else 0 := by
  rw [population, List.range'_one, List.countP_singleton]

theorem population_congr (map' : List (BitVec w)) (a n : Nat)
    (h : ∀ i, a ≤ i → i < a + n → bit map i = bit map' i) :
    population map a n = population map' a n := by
  refine List.countP_congr (fun i hi => ?_)
  rw [List.mem_range'_1] at hi
  rw [h i hi.1 hi.2]

theorem population_full (h : ∀ i, a ≤ i → i < a + n → bit map i = true) :
    population map a n = n := by
  rw [population, List.countP_eq_length.mpr, List.length_range']
  intro i hi
  rw [List.mem_range'_1] at hi
  exact h i hi.1 hi.2

theorem population_eq_zero :
    population map a n = 0 ↔ ∀ i, a ≤ i → i < a + n → bit map i = false := by
  rw [population, List.countP_eq_zero]
  simp only [List.mem_range'_1, Bool.not_eq_true, and_imp]

theorem population_le : population map a n ≤ n := by
  have hle := List.countP_le_length (p := bit map) (l := List.range' a n)
  rwa [List.length_range'] at hle

/-- A range counted at one of its numbers. -/
theorem population_at (hi : i < n) : population map 0 n =
      population map 0 i + (if bit map i then 1 else 0) + population map (i + 1) (n - (i + 1)) := by
  have hn : n = i + (1 + (n - (i + 1))) := by omega
  rw [← population_one, Nat.add_assoc]
  nth_rewrite 1 [hn]
  rw [population_add, population_add, Nat.zero_add]

theorem population_setBit (hw : 0 < w) (hi : i < n) (hslot : i / w < map.length)
    (hclear : bit map i = false) : population (setBit map i) 0 n = population map 0 n + 1 := by
  have hbit := fun j => bit_setBit map i j hw hslot
  rw [population_at _ n i hi, population_at map n i hi, hbit i, hclear,
    population_congr (setBit map i) map 0 i (fun j _ hj => by
      rw [hbit, decide_eq_false (by omega)]; rfl),
    population_congr (setBit map i) map (i + 1) _ (fun j hj _ => by
      rw [hbit, decide_eq_false (by omega)]; rfl), decide_eq_true rfl, Bool.true_or, if_pos rfl,
    if_neg (by simp)]
  omega

theorem population_clearBit (hw : 0 < w) (hi : i < n) (hslot : i / w < map.length)
    (hset : bit map i = true) : population (clearBit map i) 0 n + 1 = population map 0 n := by
  have hbit := fun j => bit_clearBit map i j hw hslot
  rw [population_at _ n i hi, population_at map n i hi, hbit i, hset,
    population_congr (clearBit map i) map 0 i (fun j _ hj => by
      rw [hbit, decide_eq_false (by omega)]; rfl),
    population_congr (clearBit map i) map (i + 1) _ (fun j hj _ => by
      rw [hbit, decide_eq_false (by omega)]; rfl), decide_eq_true rfl, Bool.and_true,
    Bool.not_true, if_neg (by simp), if_pos rfl]
  omega

theorem population_lt (hi : i < n) (hclear : bit map i = false) : population map 0 n < n := by
  rw [population_at map n i hi, hclear, if_neg (by simp)]
  have h1 := population_le map 0 i
  have h2 := population_le map (i + 1) (n - (i + 1))
  omega

end WordMap

end FreeBSDKern.Lib
