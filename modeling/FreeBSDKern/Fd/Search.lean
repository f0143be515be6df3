import FreeBSDKern.Fd.Table

/-!
# The Two Searches of the Bitmap

What `fd_first_free` and `fd_last_used` find. Both work a word at a time and
both look at bits outside the range they were given: the first at the rest of
the last word, the second at the whole word of `size` when `size` is a multiple
of the word. Neither matters in a table that sets no bit past its end, and that
is the hypothesis both results are stated under.

## Main definitions

* `LeastFree`: The lowest descriptor not in the map, from a bound on.
* `LastUsed`: The highest descriptor in the map, or -1.

## Theorems

* `fdFirstFree_spec`: The first search finds the lowest free descriptor.
* `fdLastUsed_spec`: The second finds the highest one used.
-/

namespace FreeBSDKern.Fd

open Lib

/-- The lowest number from `low` on that is not in the map. -/
def LeastFree (map : List (BitVec 64)) (low r : Nat) : Prop :=
  low ≤ r ∧ WordMap.bit map r = false ∧ ∀ i, low ≤ i → i < r → WordMap.bit map i = true

/-- The highest number in the map, or -1 if it is empty. -/
def LastUsed (map : List (BitVec 64)) (r : Int) : Prop :=
  (r = -1 ∧ ∀ i, WordMap.bit map i = false) ∨
    ∃ k : Nat, r = k ∧ WordMap.bit map k = true ∧ ∀ i, k < i → WordMap.bit map i = false

theorem toULong_natCast (n : Nat) (h : n < 2 ^ 64) : toULong n = n := by
  unfold toULong
  omega

theorem ndslots_eq (n : Nat) (h : n + 63 < 2 ^ 64) : ndslots n = (n + 63) / 64 := by
  simp only [ndslots, ndentries]
  rw [Nat.mod_eq_of_lt (by omega)]

variable (map : List (BitVec 64))

theorem bit_word (i : Nat) : WordMap.bit map i = (WordMap.word map (i / 64)).getLsbD (i % 64) := rfl

theorem getLsbD_allOnes_of_eq (x : BitVec 64) (h : x = BitVec.allOnes 64) (k : Nat) (hk : k < 64) :
    x.getLsbD k = true := by
  rw [h, BitVec.getLsbD_allOnes]
  exact decide_eq_true hk

/-- A full word holds every number of its range. -/
theorem bit_of_full (off i : Nat) (h : WordMap.word map off = BitVec.allOnes 64)
    (hlo : off * 64 ≤ i) (hhi : i < (off + 1) * 64) : WordMap.bit map i = true := by
  have hdiv : i / 64 = off := by omega
  rw [bit_word, hdiv]
  exact getLsbD_allOnes_of_eq _ h _ (by omega)

/-- A scan of the free bits of a word, looking only from bit `m` on, finds the
    lowest free number of the word. -/
theorem ffs_free (off m : Nat) (mask : BitVec 64) (hne : mask ≠ 0#64)
    (hmask : ∀ k, k < 64 → mask.getLsbD k = (decide (m ≤ k) && !(WordMap.word map off).getLsbD k)) :
    ∃ k, k < 64 ∧ m ≤ k ∧ (off * ndentries + WordMap.ffs mask - 1 : Int) = (off * 64 + k : Nat) ∧
      LeastFree map (off * 64 + m) (off * 64 + k) := by
  rcases WordMap.ffs_spec mask hne with ⟨k, hk, hffs, hbit, hbelow⟩
  rw [hmask k hk, Bool.and_eq_true, decide_eq_true_eq, Bool.not_eq_true'] at hbit
  refine ⟨k, hk, hbit.1, ?_, by omega, ?_, fun i hlo hhi => ?_⟩
  · rw [hffs]
    simp only [ndentries]
    omega
  · rw [WordMap.bit_mul_add map off k hk]
    exact hbit.2
  -- A number passed over is from `m` on, so its bit in the word was not free.
  have hi := hbelow (i - off * 64) (by omega)
  rw [hmask _ (by omega), decide_eq_true (by omega : m ≤ i - off * 64), Bool.true_and,
    Bool.not_eq_false', ← WordMap.bit_mul_add map off _ (by omega)] at hi
  rwa [show off * 64 + (i - off * 64) = i by omega] at hi

theorem LeastFree.extend {map : List (BitVec 64)} {low mid r : Nat} (h : LeastFree map mid r)
    (hle : low ≤ mid) (hset : ∀ i, low ≤ i → i < mid → WordMap.bit map i = true) :
    LeastFree map low r := by
  refine ⟨by have := h.1; omega, h.2.1, fun i hlo hhi => ?_⟩
  by_cases hi : i < mid
  · exact hset i hlo hi
  · exact h.2.2 i (by omega) hhi

theorem firstFreeLoop_spec (size low : Nat) (hlow : low ≤ size)
    (hend : ∀ i, size ≤ i → WordMap.bit map i = false) (n : Nat) :
    ∀ off, size ≤ (off + n) * 64 → low ≤ off * 64 →
      (∀ i, low ≤ i → i < off * 64 → WordMap.bit map i = true) →
      ∃ r : Nat, firstFreeLoop map size n off = r ∧ LeastFree map low r := by
  induction n with
  | zero =>
    intro off hn hoff hset
    exact ⟨size, rfl, hlow, hend size le_rfl, fun i hlo hhi => hset i hlo (by omega)⟩
  | succ n ih =>
    intro off hn hoff hset
    simp only [firstFreeLoop]
    split
    case isTrue hfree =>
      have hne : ~~~(WordMap.word map off) ≠ 0#64 := by
        intro hzero
        refine hfree (BitVec.eq_of_getLsbD_eq (fun k hk => ?_))
        have hbit := congrArg (fun x => BitVec.getLsbD x k) hzero
        rw [BitVec.getLsbD_allOnes, decide_eq_true hk]
        simpa [hk] using hbit
      rcases ffs_free map off 0 _ hne (fun k hk => by simp [hk]) with ⟨k, -, -, hres, hleast⟩
      exact ⟨off * 64 + k, hres, hleast.extend hoff hset⟩
    case isFalse hfull =>
    refine ih (off + 1) (by omega) (by omega) (fun i hlo hhi => ?_)
    by_cases hi : i < off * 64
    · exact hset i hlo hi
    · exact bit_of_full map off i (not_not.mp hfull) (by omega) hhi

/-- The search finds the lowest free descriptor, also when it has to leave the
    table to do so. -/
theorem fdFirstFree_spec (low size : Nat) (hsize : size < 2 ^ 31)
    (hend : ∀ i, size ≤ i → WordMap.bit map i = false) :
    ∃ r : Nat, fdFirstFree map low size = r ∧ LeastFree map low r := by
  simp only [fdFirstFree]
  split
  case isTrue hle =>
    exact ⟨low, rfl, Nat.le_refl low, hend low (by omega), fun i hlo hhi => by omega⟩
  case isFalse hlt =>
  have hslots : size ≤ ndslots (toULong (size : Int)) * 64 := by
    rw [toULong_natCast size (by omega), ndslots_eq size (by omega)]
    omega
  have hdiv : ndslot (low : Int).toNat = low / 64 := rfl
  have hoff : low / 64 < ndslots (toULong (size : Int)) := by omega
  have hloop := firstFreeLoop_spec map size low (by omega) hend
  rw [hdiv]
  split
  case isTrue hmod =>
    change low % 64 ≠ 0 at hmod
    split
    case isTrue hmask =>
      rcases ffs_free map (low / 64) (low % 64) _ hmask (fun k hk => by
          rw [BitVec.getLsbD_and, BitVec.getLsbD_not, decide_eq_true hk, Bool.true_and]
          exact congrArg (· && _) 
            (WordMap.getLsbD_highMask (low % 64) k (by omega) hk)) with
        ⟨k, -, -, hres, hleast⟩
      rw [show low / 64 * 64 + low % 64 = low by omega] at hleast
      exact ⟨_, hres, hleast⟩
    case isFalse hmask =>
    refine hloop _ (low / 64 + 1) (by omega) (by omega) (fun i hlo hhi => ?_)
    -- The masked word is zero, so the rest of the word is full.
    have hbit := congrArg (fun x => BitVec.getLsbD x (i % 64)) (not_not.mp hmask)
    have hidiv : i / 64 = low / 64 := by omega
    simp only [BitVec.getLsbD_and, BitVec.getLsbD_not, BitVec.getLsbD_zero] at hbit
    rw [show (low : Int).toNat % ndentries = low % 64 from rfl,
      WordMap.getLsbD_highMask _ _ (by omega) (by omega), decide_eq_true (by omega),
      decide_eq_true (by omega), Bool.true_and, Bool.true_and, Bool.not_eq_false'] at hbit
    rw [bit_word, hidiv]
    exact hbit
  case isFalse hmod =>
    have hmod0 : low % 64 = 0 := not_not.mp hmod
    exact hloop _ (low / 64) (by omega) (by omega) (fun i hlo hhi => by omega)

theorem fls_used (off m : Nat) (mask : BitVec 64) (hne : mask ≠ 0#64)
    (hmask : ∀ k, k < 64 → mask.getLsbD k = (decide (k < m) && (WordMap.word map off).getLsbD k))
    (hend : ∀ i, off * 64 + m ≤ i → WordMap.bit map i = false) (hm : m ≤ 64) :
    LastUsed map (off * ndentries + WordMap.fls mask - 1) := by
  rcases WordMap.fls_spec mask hne with ⟨k, hk, hfls, hbit, habove⟩
  rw [hmask k hk, Bool.and_eq_true, decide_eq_true_eq] at hbit
  refine .inr ⟨off * 64 + k, ?_, ?_, fun i hi => ?_⟩
  · rw [hfls]
    simp only [ndentries]
    omega
  · rw [WordMap.bit_mul_add map off k hk]
    exact hbit.2
  by_cases hlt : i < off * 64 + m
  · have hj := habove (i - off * 64) (by omega)
    rw [hmask _ (by omega), decide_eq_true (by omega : i - off * 64 < m), Bool.true_and,
      ← WordMap.bit_mul_add map off _ (by omega)] at hj
    rwa [show off * 64 + (i - off * 64) = i by omega] at hj
  · exact hend i (by omega)

theorem lastUsedLoop_spec (off : Nat) :
    (∀ i, off * 64 ≤ i → WordMap.bit map i = false) → LastUsed map (lastUsedLoop map off) := by
  induction off with
  | zero =>
    intro hend
    exact .inl ⟨rfl, fun i => hend i (by omega)⟩
  | succ off ih =>
    intro hend
    simp only [lastUsedLoop]
    split
    case isTrue hne =>
      exact fls_used map off 64 _ hne (fun k hk => by simp [hk]) (fun i hi => hend i (by omega))
        le_rfl
    case isFalse hzero =>
    refine ih (fun i hi => ?_)
    by_cases hlt : i < (off + 1) * 64
    · rw [bit_word, show i / 64 = off by omega, not_not.mp hzero, BitVec.getLsbD_zero]
    · exact hend i (by omega)

/-- The search finds the highest descriptor used, below a bound past which
    none is. -/
theorem fdLastUsed_spec (size : Nat) (hend : ∀ i, size ≤ i → WordMap.bit map i = false) :
    LastUsed map (fdLastUsed map size) := by
  simp only [fdLastUsed]
  rw [show ndslot (size : Int).toNat = size / 64 from rfl]
  split
  case isTrue hmod =>
    change size % 64 ≠ 0 at hmod
    split
    case isTrue hmask =>
      refine fls_used map (size / 64) (size % 64) _ hmask (fun k hk => ?_)
        (fun i hi => hend i (by omega)) (by omega)
      rw [BitVec.getLsbD_and]
      exact congrArg (· && _) (WordMap.getLsbD_lowMask _ k hk)
    case isFalse hmask =>
    refine lastUsedLoop_spec map (size / 64) (fun i hi => ?_)
    by_cases hlt : i < size
    · have hbit := congrArg (fun x => BitVec.getLsbD x (i % 64)) (not_not.mp hmask)
      simp only [BitVec.getLsbD_and, BitVec.getLsbD_zero] at hbit
      rw [show (size : Int).toNat % ndentries = size % 64 from rfl,
        WordMap.getLsbD_lowMask _ _ (by omega), decide_eq_true (by omega), Bool.true_and] at hbit
      rw [bit_word, show i / 64 = size / 64 by omega]
      exact hbit
    · exact hend i (by omega)
  case isFalse hmod =>
    have hmod0 : size % 64 = 0 := not_not.mp hmod
    exact lastUsedLoop_spec map (size / 64 + 1) (fun i hi => hend i (by omega))

end FreeBSDKern.Fd
