import Mathlib

/-!
# The Fragment Search of a Cylinder Group

A cylinder group has a map with a bit for every fragment, set when the fragment
is free, and counts how many maximal runs of free fragments there are of each
length inside the blocks that are not entirely free. When the counts say that a
run of a length exists, `ffs_mapsearch` finds one: it looks up the bytes of the
map in a table that tells which lengths occur in the blocks of a byte, first from
the preferred place to the end of the map and then from its beginning up to that
place, and sifts the bits of the byte it is led to.

The tables hold the answers for all block sizes that share them in different
bits of one entry. Their entries are checked one by one against the shifted masks
with which the search sifts a block, and a shifted mask fits exactly where a
maximal run of the block is. What remains is to go from bytes to the map.

`scanc` is a routine of the machine layer: the number of bytes that are left from
the first one whose entry in the table meets the mask, or zero. `NBBY` is 8.

## Main definitions

* `mapsearch`: The search.
* `MaxRun`: A maximal run of free fragments inside a block.
* `Accounted`: The counts of the group are right.
* `Scans`: What `scanc` is relied upon for.

## Theorems

* `runAt_iff`: Where a shifted mask fits.
* `fragtbl_iff`: What the tables say of a byte.
* `siftByte_spec`: What the sifting finds in a byte.
* `scan_passes`: The two passes over the map.
* `mapsearch_finds`: What the counts promise is found.
-/

namespace FreeBSDKern.Ffs

/-- Bit patterns for identifying fragments in the block map, used as
    `map & around = inside`. -/
def around : List Nat := [0x3, 0x7, 0xf, 0x1f, 0x3f, 0x7f, 0xff, 0x1ff, 0x3ff]

def inside : List Nat := [0x0, 0x2, 0x6, 0xe, 0x1e, 0x3e, 0x7e, 0xfe, 0x1fe]

def fragtbl124 : List (BitVec 8) :=
  [0x00, 0x16, 0x16, 0x2a, 0x16, 0x16, 0x26, 0x4e, 0x16, 0x16, 0x16, 0x3e, 0x2a, 0x3e, 0x4e, 0x8a,
   0x16, 0x16, 0x16, 0x3e, 0x16, 0x16, 0x36, 0x5e, 0x16, 0x16, 0x16, 0x3e, 0x3e, 0x3e, 0x5e, 0x9e,
   0x16, 0x16, 0x16, 0x3e, 0x16, 0x16, 0x36, 0x5e, 0x16, 0x16, 0x16, 0x3e, 0x3e, 0x3e, 0x5e, 0x9e,
   0x2a, 0x3e, 0x3e, 0x2a, 0x3e, 0x3e, 0x2e, 0x6e, 0x3e, 0x3e, 0x3e, 0x3e, 0x2a, 0x3e, 0x6e, 0xaa,
   0x16, 0x16, 0x16, 0x3e, 0x16, 0x16, 0x36, 0x5e, 0x16, 0x16, 0x16, 0x3e, 0x3e, 0x3e, 0x5e, 0x9e,
   0x16, 0x16, 0x16, 0x3e, 0x16, 0x16, 0x36, 0x5e, 0x16, 0x16, 0x16, 0x3e, 0x3e, 0x3e, 0x5e, 0x9e,
   0x26, 0x36, 0x36, 0x2e, 0x36, 0x36, 0x26, 0x6e, 0x36, 0x36, 0x36, 0x3e, 0x2e, 0x3e, 0x6e, 0xae,
   0x4e, 0x5e, 0x5e, 0x6e, 0x5e, 0x5e, 0x6e, 0x4e, 0x5e, 0x5e, 0x5e, 0x7e, 0x6e, 0x7e, 0x4e, 0xce,
   0x16, 0x16, 0x16, 0x3e, 0x16, 0x16, 0x36, 0x5e, 0x16, 0x16, 0x16, 0x3e, 0x3e, 0x3e, 0x5e, 0x9e,
   0x16, 0x16, 0x16, 0x3e, 0x16, 0x16, 0x36, 0x5e, 0x16, 0x16, 0x16, 0x3e, 0x3e, 0x3e, 0x5e, 0x9e,
   0x16, 0x16, 0x16, 0x3e, 0x16, 0x16, 0x36, 0x5e, 0x16, 0x16, 0x16, 0x3e, 0x3e, 0x3e, 0x5e, 0x9e,
   0x3e, 0x3e, 0x3e, 0x3e, 0x3e, 0x3e, 0x3e, 0x7e, 0x3e, 0x3e, 0x3e, 0x3e, 0x3e, 0x3e, 0x7e, 0xbe,
   0x2a, 0x3e, 0x3e, 0x2a, 0x3e, 0x3e, 0x2e, 0x6e, 0x3e, 0x3e, 0x3e, 0x3e, 0x2a, 0x3e, 0x6e, 0xaa,
   0x3e, 0x3e, 0x3e, 0x3e, 0x3e, 0x3e, 0x3e, 0x7e, 0x3e, 0x3e, 0x3e, 0x3e, 0x3e, 0x3e, 0x7e, 0xbe,
   0x4e, 0x5e, 0x5e, 0x6e, 0x5e, 0x5e, 0x6e, 0x4e, 0x5e, 0x5e, 0x5e, 0x7e, 0x6e, 0x7e, 0x4e, 0xce,
   0x8a, 0x9e, 0x9e, 0xaa, 0x9e, 0x9e, 0xae, 0xce, 0x9e, 0x9e, 0x9e, 0xbe, 0xaa, 0xbe, 0xce, 0x8a]

def fragtbl8 : List (BitVec 8) :=
  [0x00, 0x01, 0x01, 0x02, 0x01, 0x01, 0x02, 0x04, 0x01, 0x01, 0x01, 0x03, 0x02, 0x03, 0x04, 0x08,
   0x01, 0x01, 0x01, 0x03, 0x01, 0x01, 0x03, 0x05, 0x02, 0x03, 0x03, 0x02, 0x04, 0x05, 0x08, 0x10,
   0x01, 0x01, 0x01, 0x03, 0x01, 0x01, 0x03, 0x05, 0x01, 0x01, 0x01, 0x03, 0x03, 0x03, 0x05, 0x09,
   0x02, 0x03, 0x03, 0x02, 0x03, 0x03, 0x02, 0x06, 0x04, 0x05, 0x05, 0x06, 0x08, 0x09, 0x10, 0x20,
   0x01, 0x01, 0x01, 0x03, 0x01, 0x01, 0x03, 0x05, 0x01, 0x01, 0x01, 0x03, 0x03, 0x03, 0x05, 0x09,
   0x01, 0x01, 0x01, 0x03, 0x01, 0x01, 0x03, 0x05, 0x03, 0x03, 0x03, 0x03, 0x05, 0x05, 0x09, 0x11,
   0x02, 0x03, 0x03, 0x02, 0x03, 0x03, 0x02, 0x06, 0x03, 0x03, 0x03, 0x03, 0x02, 0x03, 0x06, 0x0a,
   0x04, 0x05, 0x05, 0x06, 0x05, 0x05, 0x06, 0x04, 0x08, 0x09, 0x09, 0x0a, 0x10, 0x11, 0x20, 0x40,
   0x01, 0x01, 0x01, 0x03, 0x01, 0x01, 0x03, 0x05, 0x01, 0x01, 0x01, 0x03, 0x03, 0x03, 0x05, 0x09,
   0x01, 0x01, 0x01, 0x03, 0x01, 0x01, 0x03, 0x05, 0x03, 0x03, 0x03, 0x03, 0x05, 0x05, 0x09, 0x11,
   0x01, 0x01, 0x01, 0x03, 0x01, 0x01, 0x03, 0x05, 0x01, 0x01, 0x01, 0x03, 0x03, 0x03, 0x05, 0x09,
   0x03, 0x03, 0x03, 0x03, 0x03, 0x03, 0x03, 0x07, 0x05, 0x05, 0x05, 0x07, 0x09, 0x09, 0x11, 0x21,
   0x02, 0x03, 0x03, 0x02, 0x03, 0x03, 0x02, 0x06, 0x03, 0x03, 0x03, 0x03, 0x02, 0x03, 0x06, 0x0a,
   0x03, 0x03, 0x03, 0x03, 0x03, 0x03, 0x03, 0x07, 0x02, 0x03, 0x03, 0x02, 0x06, 0x07, 0x0a, 0x12,
   0x04, 0x05, 0x05, 0x06, 0x05, 0x05, 0x06, 0x04, 0x05, 0x05, 0x05, 0x07, 0x06, 0x07, 0x04, 0x0c,
   0x08, 0x09, 0x09, 0x0a, 0x09, 0x09, 0x0a, 0x0c, 0x10, 0x11, 0x11, 0x12, 0x20, 0x21, 0x40, 0x80]

/-- The entry for a byte of the map. There are tables for four block sizes. -/
def fragtbl (frag : Nat) (x : BitVec 8) : BitVec 8 :=
  if frag = 8 then fragtbl8.getD x.toNat 0 else fragtbl124.getD x.toNat 0

/-- The fields of the file system that are used. -/
structure Fs where
  frag : Nat
  fpg : Nat

/-- The fields of the cylinder group that are used. -/
structure Cg where
  ndblk : Nat
  frotor : Nat
  frsum : Nat → Int
  nbfree : Int
  nffree : Int
  /-- The map of free fragments, byte by byte. -/
  blksfree : Nat → BitVec 8

/-- The bits of a block. -/
def blkmap (frag : Nat) (map : Nat → BitVec 8) (loc : Nat) : Nat :=
  ((map (loc / 8)).toNat >>> (loc % 8)) &&& (0xff >>> (8 - frag))

/-- The loop over the places in a block where a run may begin. -/
def posLoop (blk : Nat) : Nat → Nat → Nat → Nat → Option Nat
  | 0, _, _, _ => none
  | fuel + 1, pos, field, subfield =>
    if blk &&& field = subfield then some pos
    else posLoop blk fuel (pos + 1) (field <<< 1) (subfield <<< 1)

/-- The loop over the blocks of a byte. -/
def siftLoop (frag allocsiz : Nat) (map : Nat → BitVec 8) : Nat → Nat → Nat → Option Nat
  | 0, _, _ => none
  | fuel + 1, bno, i =>
    if bno < i then
      match posLoop (blkmap frag map bno <<< 1) (frag + 1 - allocsiz) 0 (around.getD allocsiz 0)
          (inside.getD allocsiz 0) with
      | some pos => some (bno + pos)
      | none => siftLoop frag allocsiz map fuel (bno + frag) i
    else none

inductive SearchPanic where
  /-- `ffs_alloccg: map corrupted`. -/
  | mapCorrupted
  /-- `ffs_alloccg: block not in map`. -/
  | notInMap
deriving DecidableEq, Repr

/-- The bit of the tables that stands for a length. -/
def fragMask (frag allocsiz : Nat) : BitVec 8 := BitVec.ofNat 8 (1 <<< (allocsiz - 1 + frag % 8))

/-- Sift through the bits of the byte that was found. -/
def siftByte (fs : Fs) (cg : Cg) (allocsiz bno : Nat) : Except SearchPanic (Nat × Cg) :=
  let cg := { cg with frotor := bno }
  match siftLoop fs.frag allocsiz cg.blksfree 8 bno (bno + 8) with
  | some r => .ok (r, cg)
  | none => .error .notInMap

section

variable (scanc : Nat → (Nat → BitVec 8) → (BitVec 8 → BitVec 8) → BitVec 8 → Nat)

/-- `ffs_mapsearch`. There is no preference where it is zero. -/
def mapsearch (fs : Fs) (cg : Cg) (bpref allocsiz : Nat) : Except SearchPanic (Nat × Cg) :=
  let start := if bpref ≠ 0 then bpref % fs.fpg / 8 else cg.frotor / 8
  let len := (fs.fpg + 7) / 8 - start
  let loc := scanc len (fun i => cg.blksfree (start + i)) (fragtbl fs.frag)
    (fragMask fs.frag allocsiz)
  if loc = 0 then
    let len := start + 1
    let loc := scanc len cg.blksfree (fragtbl fs.frag) (fragMask fs.frag allocsiz)
    if loc = 0 then .error .mapCorrupted
    else siftByte fs cg allocsiz ((len - loc) * 8)
  else siftByte fs cg allocsiz ((start + len - loc) * 8)

/-- What `scanc` is relied upon for. -/
structure Scans : Prop where
  found : ∀ size cp table mask i, i < size → table (cp i) &&& mask ≠ 0 →
    (∀ j < i, table (cp j) &&& mask = 0) → scanc size cp table mask = size - i
  none : ∀ size cp table mask, (∀ j < size, table (cp j) &&& mask = 0) →
    scanc size cp table mask = 0

end

/-- A maximal run of `k` free fragments inside a block of `frag` fragments, `pos`
    fragments behind its start. -/
def MaxRun (free : Nat → Bool) (frag start pos k : Nat) : Prop :=
  pos + k ≤ frag ∧ (∀ j < k, free (start + pos + j) = true) ∧
    (pos = 0 ∨ free (start + pos - 1) = false) ∧ (pos + k = frag ∨ free (start + pos + k) = false)

instance (free : Nat → Bool) (frag start pos k : Nat) : Decidable (MaxRun free frag start pos k) :=
  inferInstanceAs (Decidable (_ ∧ _))

/-- The block is entirely free. -/
def WholeFree (free : Nat → Bool) (frag b : Nat) : Prop := ∀ j < frag, free (b * frag + j) = true

instance (free : Nat → Bool) (frag b : Nat) : Decidable (WholeFree free frag b) :=
  inferInstanceAs (Decidable (∀ _ < _, _))

def Cg.isFree (cg : Cg) (f : Nat) : Bool := (cg.blksfree (f / 8)).getLsbD (f % 8)

/-- The blocks of the bytes of the map. -/
def Fs.mapBlks (fs : Fs) : Nat := (fs.fpg + 7) / 8 * 8 / fs.frag

/-- The counts of the group are right, the map says nothing of fragments that do
    not exist, and the rotor is in the group. -/
structure Accounted (fs : Fs) (cg : Cg) : Prop where
  inMap : ∀ f < (fs.fpg + 7) / 8 * 8, cg.isFree f = true → f < cg.ndblk
  ndblk : cg.ndblk ≤ fs.fpg
  rotor : cg.frotor < fs.fpg
  nbfree : cg.nbfree =
    ((Finset.range fs.mapBlks).filter (fun b => WholeFree cg.isFree fs.frag b)).card
  nffree : cg.nffree = ((Finset.range (fs.mapBlks * fs.frag)).filter
    (fun f => cg.isFree f = true ∧ ¬ WholeFree cg.isFree fs.frag (f / fs.frag))).card
  frsum : ∀ k, 0 < k → k < fs.frag → cg.frsum k =
    ((Finset.range fs.mapBlks ×ˢ Finset.range fs.frag).filter
      (fun p => MaxRun cg.isFree fs.frag (p.1 * fs.frag) p.2 k)).card

/-- A block, shifted by one as in the search, has a maximal run at a place. -/
def runAt (blk allocsiz pos : Nat) : Bool :=
  decide ((blk <<< 1) &&& (around.getD allocsiz 0 <<< pos) = inside.getD allocsiz 0 <<< pos)

/-- Some block of a byte has a maximal run of a length. -/
def byteHas (frag allocsiz x : Nat) : Bool :=
  (List.range (8 / frag)).any (fun b => (List.range (frag + 1 - allocsiz)).any
    (fun pos => runAt ((x >>> (b * frag)) &&& (0xff >>> (8 - frag))) allocsiz pos))

/-- The entries of the tables, one by one. -/
theorem fragtbl_checked : ([1, 2, 4, 8].all fun frag =>
    (if frag = 8 then fragtbl8 else fragtbl124).zipIdx.all fun p => (List.range frag).all fun k =>
      p.1.toNat.testBit (k + frag % 8) == byteHas frag (k + 1) p.2) = true := by
  decide +kernel

theorem around_eq : ∀ k ≤ 8, around.getD k 0 = 2 ^ (k + 2) - 1 := by decide

theorem inside_eq : ∀ k ≤ 8, inside.getD k 0 = (2 ^ k - 1) <<< 1 := by decide

variable {frag k pos b idx allocsiz : Nat} {fs : Fs} {cg : Cg}

/-- The bits of the map from a place on, as many as a block has. -/
theorem testBit_block (hfrag : frag ∈ [1, 2, 4, 8]) (n j : Nat) :
    (n &&& (0xff >>> (8 - frag))).testBit j = (decide (j < frag) && n.testBit j) := by
  have hmask : ∀ frag ∈ [1, 2, 4, 8], 0xff >>> (8 - frag) = 2 ^ frag - 1 := by decide
  rw [hmask frag hfrag, Nat.testBit_and, Nat.testBit_two_pow_sub_one, Bool.and_comm]

/-- A shifted mask fits where a maximal run is. -/
theorem runAt_iff {free : Nat → Bool} {start blk : Nat} (hpos : 0 < k) (hle : k ≤ 8)
    (hin : pos + k ≤ frag) (hblk : ∀ j, blk.testBit j = (decide (j < frag) && free (start + j))) :
    runAt blk k pos = true ↔ MaxRun free frag start pos k := by
  -- Bit by bit: the mask covers the run and the bit on either side of it.
  have hbits : runAt blk k pos = true ↔ ∀ i, pos ≤ i → i < pos + k + 2 →
      ((1 ≤ i ∧ blk.testBit (i - 1) = true) ↔ (pos < i ∧ i < pos + k + 1)) := by
    rw [runAt, decide_eq_true_eq, around_eq k hle, inside_eq k hle]
    constructor
    · intro h i hi hi'
      have hbit := congrArg (fun n => Nat.testBit n i) h
      simp only [Nat.testBit_and, Nat.testBit_shiftLeft, Nat.testBit_two_pow_sub_one] at hbit
      have hwin : (decide (i ≥ pos) && decide (i - pos < k + 2)) = true := by
        rw [Bool.and_eq_true, decide_eq_true_eq, decide_eq_true_eq]
        omega
      rw [hwin, Bool.and_true] at hbit
      have hiff := Bool.eq_iff_iff.mp hbit
      simp only [Bool.and_eq_true, decide_eq_true_eq] at hiff
      rw [ge_iff_le] at hiff
      rw [hiff]
      omega
    intro h
    refine Nat.eq_of_testBit_eq (fun i => ?_)
    simp only [Nat.testBit_and, Nat.testBit_shiftLeft, Nat.testBit_two_pow_sub_one]
    refine Bool.eq_iff_iff.mpr ?_
    simp only [Bool.and_eq_true, decide_eq_true_eq, ge_iff_le]
    constructor
    · intro hb
      have := (h i hb.2.1 (by omega)).mp hb.1
      omega
    · intro hb
      exact ⟨(h i hb.1 (by omega)).mpr (by omega), hb.1, by omega⟩
  rw [hbits]
  constructor
  · intro h
    refine ⟨hin, fun j hj => ?_, ?_, ?_⟩
    · have := ((h (pos + j + 1) (by omega) (by omega)).mpr (by omega)).2
      rw [Nat.add_sub_cancel, hblk, Bool.and_eq_true, ← Nat.add_assoc] at this
      exact this.2
    · by_cases hzero : pos = 0
      · exact Or.inl hzero
      right
      by_contra hfree
      rw [Bool.not_eq_false] at hfree
      have := (h pos le_rfl (by omega)).mp ⟨by omega, by
        rw [hblk, decide_eq_true (by omega), Bool.true_and, ← Nat.add_sub_assoc (by omega)]
        exact hfree⟩
      omega
    by_cases hend : pos + k = frag
    · exact Or.inl hend
    right
    by_contra hfree
    rw [Bool.not_eq_false] at hfree
    have := (h (pos + k + 1) (by omega) (by omega)).mp ⟨by omega, by
      rw [Nat.add_sub_cancel, hblk, decide_eq_true (by omega), Bool.true_and, ← Nat.add_assoc]
      exact hfree⟩
    omega
  intro h i hi hi'
  rcases h with ⟨-, hrun, hbefore, hbehind⟩
  rw [hblk, Bool.and_eq_true, decide_eq_true_eq]
  constructor
  · intro hb
    by_contra hout
    by_cases hleft : i = pos
    · rcases hbefore with hzero | hclear
      · omega
      · rw [← Nat.add_sub_assoc hb.1, hleft, hclear] at hb
        exact Bool.false_ne_true hb.2.2
    rcases hbehind with hend | hclear
    · omega
    have hi2 : start + (i - 1) = start + pos + k := by omega
    rw [hi2, hclear] at hb
    exact Bool.false_ne_true hb.2.2
  intro hb
  refine ⟨by omega, by omega, ?_⟩
  have := hrun (i - 1 - pos) (by omega)
  rwa [show start + pos + (i - 1 - pos) = start + (i - 1) by omega] at this

/-- The loop over the places of a block ends at the first one where the mask fits. -/
theorem posLoop_spec (blk k fuel : Nat) : ∀ pos,
    (∃ p, posLoop (blk <<< 1) fuel pos (around.getD k 0 <<< pos) (inside.getD k 0 <<< pos) =
      some p ∧ p < pos + fuel ∧ runAt blk k p = true) ∨
    (posLoop (blk <<< 1) fuel pos (around.getD k 0 <<< pos) (inside.getD k 0 <<< pos) = none ∧
      ∀ p, pos ≤ p → p < pos + fuel → runAt blk k p = false) := by
  induction fuel with
  | zero => exact fun pos => Or.inr ⟨rfl, fun p hp hp' => by omega⟩
  | succ fuel ih =>
    intro pos
    unfold posLoop
    by_cases hfit : (blk <<< 1) &&& (around.getD k 0 <<< pos) = inside.getD k 0 <<< pos
    · rw [if_pos hfit]
      exact Or.inl ⟨pos, rfl, by omega, decide_eq_true hfit⟩
    rw [if_neg hfit, ← Nat.shiftLeft_add, ← Nat.shiftLeft_add]
    rcases ih (pos + 1) with ⟨p, hrun, hp, hat⟩ | ⟨hrun, hnone⟩
    · exact Or.inl ⟨p, hrun, by omega, hat⟩
    refine Or.inr ⟨hrun, fun p hp hp' => ?_⟩
    by_cases heq : p = pos
    · rw [heq]
      exact decide_eq_false hfit
    · exact hnone p (by omega) (by omega)

/-- Only the bits of the block matter. -/
theorem MaxRun.congr {free free' : Nat → Bool} {start start' : Nat}
    (h : MaxRun free frag start pos k) (hsame : ∀ j < frag, free' (start' + j) = free (start + j)) :
    MaxRun free' frag start' pos k := by
  rcases h with ⟨hin, hrun, hbefore, hbehind⟩
  refine ⟨hin, fun j hj => ?_, ?_, ?_⟩
  · rw [Nat.add_assoc, hsame _ (by omega), ← Nat.add_assoc]
    exact hrun j hj
  · by_cases hzero : pos = 0
    · exact Or.inl hzero
    right
    rw [Nat.add_sub_assoc (by omega), hsame _ (by omega), ← Nat.add_sub_assoc (by omega)]
    exact hbefore.resolve_left hzero
  by_cases hend : pos + k = frag
  · exact Or.inl hend
  right
  rw [Nat.add_assoc, hsame _ (by omega), ← Nat.add_assoc]
  exact hbehind.resolve_left hend

theorem block_in_byte (hb : b < 8 / frag) : b * frag + frag ≤ 8 := by
  have hmul : (b + 1) * frag ≤ 8 / frag * frag := Nat.mul_le_mul_right _ hb
  have hdiv := Nat.div_mul_le_self 8 frag
  rw [Nat.succ_mul] at hmul
  omega

/-- A place of a block in which a run of a length begins, in the byte. -/
theorem byteHas_iff (hfrag : frag ∈ [1, 2, 4, 8]) (hpos : 0 < k) (hle : k ≤ frag) (x : BitVec 8) :
    byteHas frag k x.toNat = true ↔
      ∃ b < 8 / frag, ∃ pos, MaxRun x.getLsbD frag (b * frag) pos k := by
  have hle8 : ∀ frag ∈ [1, 2, 4, 8], frag ≤ 8 := by decide
  have hblk : ∀ b j, ((x.toNat >>> (b * frag)) &&& (0xff >>> (8 - frag))).testBit j =
      (decide (j < frag) && x.getLsbD (b * frag + j)) := by
    intro b j
    rw [testBit_block hfrag, Nat.testBit_shiftRight]
    rfl
  have hk8 := hle8 frag hfrag
  unfold byteHas
  simp only [List.any_eq_true, List.mem_range]
  refine exists_congr (fun b => and_congr_right (fun _ => exists_congr (fun pos => ?_)))
  constructor
  · intro h
    exact (runAt_iff hpos (by omega) (by omega) (hblk b)).mp h.2
  intro h
  have hin := h.1
  exact ⟨by omega, (runAt_iff hpos (by omega) hin (hblk b)).mpr h⟩

theorem getD_mem_zipIdx {l : List (BitVec 8)} {i : Nat} (h : i < l.length) :
    (l.getD i 0, i) ∈ l.zipIdx := by
  rw [List.mem_zipIdx_iff_getElem?]
  simp [h]

theorem and_bit_eq_zero (x n : Nat) : x &&& (1 <<< n) = 0 ↔ x.testBit n = false := by
  constructor
  · intro h
    have hbit := congrArg (fun y => Nat.testBit y n) h
    simpa [Nat.testBit_and, Nat.testBit_shiftLeft] using hbit
  intro h
  refine Nat.eq_of_testBit_eq (fun i => ?_)
  rw [Nat.testBit_and, Nat.one_shiftLeft, Nat.testBit_two_pow, Nat.zero_testBit]
  by_cases hi : n = i
  · rw [← hi, h, Bool.false_and]
  · rw [decide_eq_false hi, Bool.and_false]

/-- The mask of a length has one bit. -/
theorem and_fragMask (hfrag : frag ∈ [1, 2, 4, 8]) (hle : k ≤ frag) (hpos : 0 < k) (t : BitVec 8) :
    t &&& fragMask frag k = 0 ↔ t.toNat.testBit (k - 1 + frag % 8) = false := by
  have hplace : ∀ frag ∈ [1, 2, 4, 8], ∀ k ≤ frag, 0 < k → k - 1 + frag % 8 < 8 := by decide
  have hsmall : 1 <<< (k - 1 + frag % 8) < 2 ^ 8 := by
    rw [Nat.one_shiftLeft]
    exact Nat.pow_lt_pow_right (by decide) (hplace frag hfrag k hle hpos)
  rw [← BitVec.toNat_inj, BitVec.toNat_and, fragMask, BitVec.toNat_ofNat, Nat.mod_eq_of_lt hsmall]
  exact and_bit_eq_zero _ _

theorem fragtbl_iff (hfrag : frag ∈ [1, 2, 4, 8]) (hpos : 0 < k) (hle : k ≤ frag) (x : BitVec 8) :
    fragtbl frag x &&& fragMask frag k ≠ 0 ↔
      ∃ b < 8 / frag, ∃ pos, MaxRun x.getLsbD frag (b * frag) pos k := by
  have hlen : 256 ≤ (if frag = 8 then fragtbl8 else fragtbl124).length := by
    split <;> decide +kernel
  have hchecked := fragtbl_checked
  simp only [List.all_eq_true, List.mem_range, beq_iff_eq] at hchecked
  have hentry := hchecked frag hfrag _ (getD_mem_zipIdx (x.isLt.trans_le hlen)) (k - 1) (by omega)
  rw [Nat.sub_add_cancel hpos] at hentry
  have htbl : fragtbl frag x = (if frag = 8 then fragtbl8 else fragtbl124).getD x.toNat 0 :=
    (apply_ite (fun l : List (BitVec 8) => l.getD x.toNat 0) _ _ _).symm
  rw [← byteHas_iff hfrag hpos hle, ← hentry, ne_eq, and_fragMask hfrag hle hpos, Bool.not_eq_false,
    htbl]

/-- A bit of the map. -/
def mapBit (map : Nat → BitVec 8) (f : Nat) : Bool := (map (f / 8)).getLsbD (f % 8)

theorem mapBit_byte (map : Nat → BitVec 8) {o : Nat} (ho : o < 8) :
    mapBit map (idx * 8 + o) = (map idx).getLsbD o := by
  rw [mapBit, show (idx * 8 + o) / 8 = idx by omega, show (idx * 8 + o) % 8 = o by omega]

/-- A run of a block is the same in the byte and in the map. -/
theorem maxRun_byte (map : Nat → BitVec 8) (hb : b < 8 / frag) :
    MaxRun (map idx).getLsbD frag (b * frag) pos k ↔
      MaxRun (mapBit map) frag (idx * 8 + b * frag) pos k := by
  have hin := block_in_byte hb
  have hsame : ∀ j < frag,
      mapBit map (idx * 8 + b * frag + j) = (map idx).getLsbD (b * frag + j) := by
    intro j hj
    rw [Nat.add_assoc, mapBit_byte map (by omega)]
  exact ⟨fun h => h.congr hsame, fun h => h.congr (fun j hj => (hsame j hj).symm)⟩

/-- The loop over the blocks of a byte, from the one it has come to. -/
theorem siftLoop_spec (hfrag : frag ∈ [1, 2, 4, 8]) (hpos : 0 < k) (hle : k ≤ frag)
    (map : Nat → BitVec 8) (idx fuel : Nat) : ∀ b, b ≤ 8 / frag → 8 / frag ≤ b + fuel →
    (∃ b' < 8 / frag, ∃ pos, siftLoop frag k map fuel (idx * 8 + b * frag) (idx * 8 + 8) =
        some (idx * 8 + b' * frag + pos) ∧
      MaxRun (mapBit map) frag (idx * 8 + b' * frag) pos k) ∨
    ∀ b', b ≤ b' → b' < 8 / frag → ∀ pos,
      ¬ MaxRun (mapBit map) frag (idx * 8 + b' * frag) pos k := by
  have hfacts : ∀ frag ∈ [1, 2, 4, 8], frag ≤ 8 ∧ 0 < frag := by decide
  have hk8 := hfacts frag hfrag
  induction fuel with
  | zero => exact fun b _ hfuel => Or.inr (fun b' hb' hlt => by omega)
  | succ fuel ih =>
    intro b hb hfuel
    by_cases hend : b = 8 / frag
    · exact Or.inr (fun b' hb' hlt => by omega)
    have hb8 : b * frag + frag ≤ 8 := block_in_byte (by omega)
    have hblk : ∀ j, (blkmap frag map (idx * 8 + b * frag)).testBit j =
        (decide (j < frag) && mapBit map (idx * 8 + b * frag + j)) := by
      intro j
      rw [blkmap, testBit_block hfrag, Nat.testBit_shiftRight]
      by_cases hj : j < frag
      · rw [Nat.add_assoc, mapBit_byte map (by omega), show (idx * 8 + b * frag) / 8 = idx by omega,
          show (idx * 8 + b * frag) % 8 = b * frag by omega]
        rfl
      · rw [decide_eq_false hj, Bool.false_and, Bool.false_and]
    have hplaces := posLoop_spec (blkmap frag map (idx * 8 + b * frag)) k (frag + 1 - k) 0
    rw [Nat.shiftLeft_zero, Nat.shiftLeft_zero] at hplaces
    unfold siftLoop
    rw [if_pos (by omega)]
    rcases hplaces with ⟨p, hrun, hp, hat⟩ | ⟨hrun, hnone⟩
    · rw [hrun]
      exact Or.inl ⟨b, by omega, p, rfl, (runAt_iff hpos (by omega) (by omega) hblk).mp hat⟩
    rw [hrun]
    simp only
    rw [Nat.add_assoc, ← Nat.succ_mul]
    rcases ih (b + 1) (by omega) (by omega) with hfound | hrest
    · exact Or.inl hfound
    refine Or.inr (fun b' hb' hlt pos h => ?_)
    by_cases heq : b' = b
    · rw [heq] at h
      have hin := h.1
      have hat := (runAt_iff hpos (by omega) hin hblk).mpr h
      rw [hnone pos zero_le (by omega)] at hat
      exact Bool.false_ne_true hat
    · exact hrest b' (by omega) hlt pos h

variable {scanc : Nat → (Nat → BitVec 8) → (BitVec 8 → BitVec 8) → BitVec 8 → Nat}

/-- A scan stops at the first byte that meets the mask, if there is one. -/
theorem Scans.stops (h : Scans scanc) (size : Nat) (cp : Nat → BitVec 8)
    (table : BitVec 8 → BitVec 8) (mask : BitVec 8) :
    (∃ i < size, table (cp i) &&& mask ≠ 0 ∧ scanc size cp table mask = size - i) ∨
    (scanc size cp table mask = 0 ∧ ∀ i < size, table (cp i) &&& mask = 0) := by
  by_cases hex : ∃ i, i < size ∧ table (cp i) &&& mask ≠ 0
  · have hfirst := Nat.find_spec hex
    refine Or.inl ⟨Nat.find hex, hfirst.1, hfirst.2, h.found _ _ _ _ _ hfirst.1 hfirst.2 ?_⟩
    intro j hj
    by_contra hhit
    exact Nat.find_min hex hj ⟨by omega, hhit⟩
  have hnone : ∀ i < size, table (cp i) &&& mask = 0 := by
    intro i hi
    by_contra hhit
    exact hex ⟨i, hi, hhit⟩
  exact Or.inr ⟨h.none _ _ _ _ hnone, hnone⟩

/-- Where the search begins. -/
def searchStart (fs : Fs) (cg : Cg) (bpref : Nat) : Nat :=
  if bpref ≠ 0 then bpref % fs.fpg / 8 else cg.frotor / 8

/-- Between them the two passes see every byte of the map. -/
theorem scan_passes (hscan : Scans scanc) {bpref : Nat}
    (hstart : searchStart fs cg bpref < (fs.fpg + 7) / 8) (hidx : idx < (fs.fpg + 7) / 8)
    (hhit : fragtbl fs.frag (cg.blksfree idx) &&& fragMask fs.frag allocsiz ≠ 0) :
    ∃ i < (fs.fpg + 7) / 8, fragtbl fs.frag (cg.blksfree i) &&& fragMask fs.frag allocsiz ≠ 0 ∧
      mapsearch scanc fs cg bpref allocsiz = siftByte fs cg allocsiz (i * 8) := by
  unfold mapsearch
  simp only
  rw [← searchStart]
  generalize searchStart fs cg bpref = start at hstart
  rcases hscan.stops ((fs.fpg + 7) / 8 - start) (fun i => cg.blksfree (start + i))
    (fragtbl fs.frag) (fragMask fs.frag allocsiz) with ⟨i, hi, hit, hloc⟩ | ⟨hloc, hnone⟩
  · rw [if_neg (by omega), hloc]
    refine ⟨start + i, by omega, hit, ?_⟩
    congr 1
    omega
  rw [if_pos hloc]
  -- Nothing from the start on, so the byte lies before it.
  have hbefore : idx < start := by
    by_contra hge
    have := hnone (idx - start) (by omega)
    simp only [show start + (idx - start) = idx by omega] at this
    exact hhit this
  rcases hscan.stops (start + 1) cg.blksfree (fragtbl fs.frag) (fragMask fs.frag allocsiz) with
    ⟨i, hi, hit, hloc⟩ | ⟨hloc, hnone⟩
  · rw [if_neg (by omega), hloc]
    refine ⟨i, by omega, hit, ?_⟩
    congr 1
    omega
  · exact absurd (hnone idx (by omega)) hhit

/-- The byte that was found holds a run, and the sifting finds one. -/
theorem siftByte_spec (hfrag : fs.frag ∈ [1, 2, 4, 8]) (hpos : 0 < allocsiz)
    (hle : allocsiz ≤ fs.frag)
    (hhit : fragtbl fs.frag (cg.blksfree idx) &&& fragMask fs.frag allocsiz ≠ 0) :
    ∃ b < 8 / fs.frag, ∃ pos, siftByte fs cg allocsiz (idx * 8) =
        .ok (idx * 8 + b * fs.frag + pos, { cg with frotor := idx * 8 }) ∧
      MaxRun cg.isFree fs.frag (idx * 8 + b * fs.frag) pos allocsiz := by
  have hfew : ∀ frag ∈ [1, 2, 4, 8], 8 / frag ≤ 8 := by decide
  rcases siftLoop_spec hfrag hpos hle cg.blksfree idx 8 0 zero_le
    (by rw [Nat.zero_add]; exact hfew _ hfrag) with ⟨b, hb, pos, hrun, hmax⟩ | hnone
  · rw [Nat.zero_mul, Nat.add_zero] at hrun
    refine ⟨b, hb, pos, ?_, hmax⟩
    unfold siftByte
    simp only [hrun]
  · rcases (fragtbl_iff hfrag hpos hle (cg.blksfree idx)).mp hhit with ⟨b, hb, pos, hmax⟩
    exact absurd ((maxRun_byte cg.blksfree hb).mp hmax) (hnone b zero_le hb pos)

/-- What the counts say there is, is in some block of the map. -/
theorem Accounted.exists_run (h : Accounted fs cg)
    (hsiz : (0 < allocsiz ∧ allocsiz < fs.frag ∧ 0 < cg.frsum allocsiz) ∨
      (allocsiz = fs.frag ∧ 0 < cg.nbfree)) :
    ∃ b < fs.mapBlks, ∃ pos, MaxRun cg.isFree fs.frag (b * fs.frag) pos allocsiz := by
  rcases hsiz with ⟨hpos, hlt, hsum⟩ | ⟨rfl, hsum⟩
  · rw [h.frsum allocsiz hpos hlt, Int.natCast_pos, Finset.card_pos] at hsum
    rcases hsum with ⟨p, hp⟩
    rw [Finset.mem_filter, Finset.mem_product, Finset.mem_range] at hp
    exact ⟨p.1, hp.1.1, p.2, hp.2⟩
  rw [h.nbfree, Int.natCast_pos, Finset.card_pos] at hsum
  rcases hsum with ⟨b, hb⟩
  rw [Finset.mem_filter, Finset.mem_range] at hb
  refine ⟨b, hb.1, 0, by omega, fun j hj => ?_, Or.inl rfl, Or.inl (Nat.zero_add _)⟩
  rw [Nat.add_zero]
  exact hb.2 j hj

/-- A block of the map is in one of its bytes. -/
theorem exists_byte (hfrag : fs.frag ∈ [1, 2, 4, 8]) (hb : b < fs.mapBlks) :
    ∃ idx < (fs.fpg + 7) / 8, ∃ b' < 8 / fs.frag, b * fs.frag = idx * 8 + b' * fs.frag := by
  have hfacts : ∀ frag ∈ [1, 2, 4, 8], 0 < frag ∧ 8 / frag * frag = 8 := by decide
  rcases hfacts _ hfrag with ⟨hpos, h8⟩
  have hper : 0 < 8 / fs.frag := by
    by_contra hzero
    rw [Nat.eq_zero_of_not_pos hzero] at h8
    omega
  have hdiv := Nat.div_add_mod b (8 / fs.frag)
  refine ⟨b / (8 / fs.frag), ?_, b % (8 / fs.frag), Nat.mod_lt _ hper, ?_⟩
  · rw [Fs.mapBlks, Nat.mul_div_assoc _ (Dvd.intro_left _ h8), Nat.mul_comm] at hb
    exact Nat.div_lt_of_lt_mul hb
  calc b * fs.frag = (8 / fs.frag * (b / (8 / fs.frag)) + b % (8 / fs.frag)) * fs.frag := by
        rw [hdiv]
    _ = b / (8 / fs.frag) * (8 / fs.frag * fs.frag) + b % (8 / fs.frag) * fs.frag := by ring
    _ = b / (8 / fs.frag) * 8 + b % (8 / fs.frag) * fs.frag := by rw [h8]

theorem Accounted.start (h : Accounted fs cg) (bpref : Nat) :
    searchStart fs cg bpref < (fs.fpg + 7) / 8 := by
  have hrotor := h.rotor
  unfold searchStart
  by_cases hpref : bpref ≠ 0
  · rw [if_pos hpref]
    have := Nat.mod_lt bpref (Nat.zero_lt_of_lt hrotor)
    omega
  · rw [if_neg hpref]
    omega

/-- The rotor may be moved to any byte of the map. -/
theorem Accounted.rotate (h : Accounted fs cg) (hidx : idx < (fs.fpg + 7) / 8) :
    Accounted fs { cg with frotor := idx * 8 } where
  inMap := h.inMap
  ndblk := h.ndblk
  rotor := by
    change idx * 8 < fs.fpg
    omega
  nbfree := h.nbfree
  nffree := h.nffree
  frsum := h.frsum

/-- The search finds a run of the length the counts promise. -/
theorem Accounted.search (hscan : Scans scanc) (hfrag : fs.frag ∈ [1, 2, 4, 8])
    (h : Accounted fs cg) (bpref : Nat)
    (hsiz : (0 < allocsiz ∧ allocsiz < fs.frag ∧ 0 < cg.frsum allocsiz) ∨
      (allocsiz = fs.frag ∧ 0 < cg.nbfree)) :
    ∃ b pos cg', mapsearch scanc fs cg bpref allocsiz = .ok (b * fs.frag + pos, cg') ∧
      MaxRun cg.isFree fs.frag (b * fs.frag) pos allocsiz ∧
      b * fs.frag + pos + allocsiz ≤ cg.ndblk ∧
      (∃ rotor, cg' = { cg with frotor := rotor }) ∧ Accounted fs cg' := by
  have hfacts : ∀ frag ∈ [1, 2, 4, 8], 0 < frag ∧ 8 / frag * frag = 8 := by decide
  rcases hfacts _ hfrag with ⟨hfpos, h8⟩
  have hpos : 0 < allocsiz ∧ allocsiz ≤ fs.frag := by omega
  -- Some byte of the map holds such a run, so the passes come to one.
  rcases h.exists_run hsiz with ⟨b, hb, pos, hmax⟩
  rcases exists_byte hfrag hb with ⟨idx, hidx, b', hb', hplace⟩
  rw [hplace] at hmax
  have hhit := (fragtbl_iff hfrag hpos.1 hpos.2 (cg.blksfree idx)).mpr
    ⟨b', hb', pos, (maxRun_byte cg.blksfree hb').mpr hmax⟩
  rcases scan_passes hscan (h.start bpref) hidx hhit with ⟨i, hi, hit, hsearch⟩
  rcases siftByte_spec hfrag hpos.1 hpos.2 hit with ⟨c, hc, pos, hsift, hmax⟩
  have hblock : (i * (8 / fs.frag) + c) * fs.frag = i * 8 + c * fs.frag := by
    rw [Nat.add_mul, Nat.mul_assoc, h8]
  refine ⟨i * (8 / fs.frag) + c, pos, _, ?_, ?_, ?_, ⟨_, rfl⟩, h.rotate hi⟩
  · rw [hsearch, hsift, hblock]
  · rw [hblock]
    exact hmax
  -- The last fragment of the run exists, as it is free.
  have hin := block_in_byte hc
  have hlast := hmax.2.1 (allocsiz - 1) (by omega)
  have hrun := hmax.1
  have := h.inMap (i * 8 + c * fs.frag + pos + (allocsiz - 1)) (by omega) hlast
  rw [hblock]
  omega

/-- The loop of `ffs_alloccg` over the lengths, from the one that is asked for. -/
def allocsizLoop (frsum : Nat → Int) (frag : Nat) : Nat → Nat → Nat
  | 0, allocsiz => allocsiz
  | fuel + 1, allocsiz =>
    if allocsiz < frag then
      if frsum allocsiz ≠ 0 then allocsiz else allocsizLoop frsum frag fuel (allocsiz + 1)
    else allocsiz

theorem allocsizLoop_spec (frsum : Nat → Int) (frag fuel : Nat) : ∀ allocsiz,
    frag ≤ allocsiz + fuel → allocsiz ≤ allocsizLoop frsum frag fuel allocsiz ∧
      (allocsizLoop frsum frag fuel allocsiz < frag →
        frsum (allocsizLoop frsum frag fuel allocsiz) ≠ 0) := by
  induction fuel with
  | zero =>
    intro a hfuel
    exact ⟨Nat.le_refl a, fun hlt => absurd (show a < frag from hlt) (by omega)⟩
  | succ fuel ih =>
    intro a hfuel
    unfold allocsizLoop
    by_cases hlt : a < frag
    · rw [if_pos hlt]
      by_cases hsum : frsum a ≠ 0
      · rw [if_pos hsum]
        exact ⟨Nat.le_refl a, fun _ => hsum⟩
      rw [if_neg hsum]
      rcases ih (a + 1) (by omega) with ⟨hle, hne⟩
      exact ⟨by omega, hne⟩
    · rw [if_neg hlt]
      exact ⟨Nat.le_refl a, fun h => absurd h hlt⟩

/-- Whatever the preference and wherever the rotor stands, the search finds a run
    of the length the counts promise, exactly as long, in one block of the group,
    and neither panic is reached. -/
theorem mapsearch_finds (hscan : Scans scanc) {fs : Fs} {cg : Cg}
    (hfrag : fs.frag ∈ [1, 2, 4, 8]) (h : Accounted fs cg) (bpref : Nat) {allocsiz : Nat}
    (hsiz : (0 < allocsiz ∧ allocsiz < fs.frag ∧ 0 < cg.frsum allocsiz) ∨
      (allocsiz = fs.frag ∧ 0 < cg.nbfree)) :
    ∃ b pos cg', mapsearch scanc fs cg bpref allocsiz = .ok (b * fs.frag + pos, cg') ∧
      MaxRun cg.isFree fs.frag (b * fs.frag) pos allocsiz ∧
      b * fs.frag + pos + allocsiz ≤ cg.ndblk ∧
      (∃ rotor, cg' = { cg with frotor := rotor }) ∧ Accounted fs cg' :=
  h.search hscan hfrag bpref hsiz

/-- A loop over the bytes, as the machine layer has it. -/
def scancLoop (table : BitVec 8 → BitVec 8) (mask : BitVec 8) (cp : Nat → BitVec 8) :
    Nat → Nat → Nat
  | 0, _ => 0
  | size + 1, i =>
    if table (cp i) &&& mask ≠ 0 then size + 1 else scancLoop table mask cp size (i + 1)

theorem scancLoop_spec (table : BitVec 8 → BitVec 8) (mask : BitVec 8) (cp : Nat → BitVec 8)
    (size : Nat) : ∀ i,
    (∀ j < size, table (cp (i + j)) &&& mask ≠ 0 → (∀ l < j, table (cp (i + l)) &&& mask = 0) →
      scancLoop table mask cp size i = size - j) ∧
    ((∀ j < size, table (cp (i + j)) &&& mask = 0) → scancLoop table mask cp size i = 0) := by
  induction size with
  | zero => exact fun i => ⟨fun j hj => by omega, fun _ => rfl⟩
  | succ size ih =>
    intro i
    unfold scancLoop
    by_cases hhit : table (cp i) &&& mask ≠ 0
    · rw [if_pos hhit]
      refine ⟨fun j _ _ hbefore => ?_, fun hnone => absurd (hnone 0 (by omega)) hhit⟩
      by_cases hzero : j = 0
      · omega
      · exact absurd (hbefore 0 (by omega)) hhit
    rw [if_neg hhit]
    refine ⟨fun j hj hit hbefore => ?_, fun hnone => ?_⟩
    · by_cases hzero : j = 0
      · rw [hzero] at hit
        exact absurd hit hhit
      rw [(ih (i + 1)).1 (j - 1) (by omega)
        (by rwa [show i + 1 + (j - 1) = i + j by omega])
        (fun l hl => by
          rw [show i + 1 + l = i + (l + 1) by omega]
          exact hbefore (l + 1) (by omega))]
      omega
    refine (ih (i + 1)).2 (fun j hj => ?_)
    rw [show i + 1 + j = i + (j + 1) by omega]
    exact hnone (j + 1) (by omega)

theorem scancLoop_scans : Scans (fun size cp table mask => scancLoop table mask cp size 0) := by
  constructor
  · intro size cp table mask i hi hit hbefore
    exact (scancLoop_spec table mask cp size 0).1 i hi (by rwa [Nat.zero_add])
      (fun l hl => by rw [Nat.zero_add]; exact hbefore l hl)
  intro size cp table mask hnone
  exact (scancLoop_spec table mask cp size 0).2
    (fun j hj => by rw [Nat.zero_add]; exact hnone j hj)

/-- Four blocks of four fragments: two free ones in the middle of the first, one
    at the end of the second, and the last block entirely free. -/
def pieceGroup : Cg where
  ndblk := 16
  frotor := 8
  frsum := fun k => if k = 1 ∨ k = 2 then 1 else 0
  nbfree := 1
  nffree := 3
  blksfree := fun i => if i = 0 then 0x86 else if i = 1 then 0xf0 else 0

theorem pieceGroup_accounted : Accounted ⟨4, 16⟩ pieceGroup := by
  have hsum : ∀ k < 4, 0 < k → pieceGroup.frsum k = ((Finset.range 4 ×ˢ Finset.range 4).filter
        (fun p => MaxRun pieceGroup.isFree 4 (p.1 * 4) p.2 k)).card := by decide
  refine ⟨by decide, by decide, by decide, by decide, by decide, ?_⟩
  exact fun k hpos hlt => hsum k hlt hpos

theorem mapsearch_finds_two : ∃ b pos cg',
    mapsearch (fun size cp table mask => scancLoop table mask cp size 0) ⟨4, 16⟩ pieceGroup 12 2 =
      .ok (b * 4 + pos, cg') ∧ MaxRun pieceGroup.isFree 4 (b * 4) pos 2 := by
  have hfrag : (⟨4, 16⟩ : Fs).frag ∈ [1, 2, 4, 8] := by decide
  have hsiz : 0 < 2 ∧ 2 < 4 ∧ 0 < pieceGroup.frsum 2 := by decide
  rcases mapsearch_finds scancLoop_scans hfrag pieceGroup_accounted 12 (Or.inl hsiz) with
    ⟨b, pos, cg', hrun, hmax, -⟩
  exact ⟨b, pos, cg', hrun, hmax⟩

end FreeBSDKern.Ffs
