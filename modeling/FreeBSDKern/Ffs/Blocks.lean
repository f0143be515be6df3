import FreeBSDKern.Ffs.Mapsearch
import FreeBSDKern.Lib.Runs

/-!
# The Blocks of a Fragment Map

The map of free fragments is read and changed by blocks. The masks of the source
take the bits of a block out of its byte, and `ffs_fragacct` adds the runs of a
block that is not entirely free to the counts, or takes them away.

The counts of a group are sums over its blocks. A change of the map inside one
block changes each of them by what the block counts for afterwards, less what it
counted for before. For the changes the allocator makes this is worked out here:
a run loses its first fragments, a block is taken or given back as a whole or but
for its last fragments, and some fragments of a block are given back.

## Main definitions

* `setMapBit`, `clrMapBit`, `isblock`, `isfreeblock`, `clrblock`, `setblock`: Bits
  and blocks of the map.
* `fragacct`: The counts of one block.
* `wholeOf`, `looseOf`, `runsOf`: What a block counts for.

## Theorems

* `mapBit_clrblock`, `mapBit_setblock`: A block of the map is changed.
* `fragacct_apply`: What `ffs_fragacct` adds to a count.
* `Accounted.change`: A change inside one block.
* `takeRun_counts`: A run loses its first fragments.
-/

namespace FreeBSDKern.Ffs

open Lib Function

def setMapBit (map : Nat → BitVec 8) (i : Nat) : Nat → BitVec 8 :=
  update map (i / 8) (map (i / 8) ||| 1#8 <<< (i % 8))

def clrMapBit (map : Nat → BitVec 8) (i : Nat) : Nat → BitVec 8 :=
  update map (i / 8) (map (i / 8) &&& ~~~(1#8 <<< (i % 8)))

/-- The byte of the map that holds a block. -/
def blockByte (frag h : Nat) : Nat :=
  if frag = 8 then h else if frag = 4 then h >>> 1 else if frag = 2 then h >>> 2 else h >>> 3

/-- The bits of a block in its byte. -/
def blockMask (frag h : Nat) : BitVec 8 :=
  if frag = 8 then 0xff#8
  else if frag = 4 then 0x0f#8 <<< ((h &&& 0x1) <<< 2)
  else if frag = 2 then 0x03#8 <<< ((h &&& 0x3) <<< 1)
  else 0x01#8 <<< (h &&& 0x7)

/-- `ffs_isblock`: the block is available. -/
def isblock (frag : Nat) (cp : Nat → BitVec 8) (h : Nat) : Bool :=
  cp (blockByte frag h) &&& blockMask frag h == blockMask frag h

/-- `ffs_isfreeblock`: no fragment of the block is available. -/
def isfreeblock (frag : Nat) (cp : Nat → BitVec 8) (h : Nat) : Bool :=
  cp (blockByte frag h) &&& blockMask frag h == 0

/-- `ffs_clrblock`. -/
def clrblock (frag : Nat) (cp : Nat → BitVec 8) (h : Nat) : Nat → BitVec 8 :=
  update cp (blockByte frag h) (cp (blockByte frag h) &&& ~~~blockMask frag h)

/-- `ffs_setblock`. -/
def setblock (frag : Nat) (cp : Nat → BitVec 8) (h : Nat) : Nat → BitVec 8 :=
  update cp (blockByte frag h) (cp (blockByte frag h) ||| blockMask frag h)

/-- The loop of `ffs_fragacct` over the places of a block, for one length. -/
def fragacctLoop (fragmap frag siz : Nat) (cnt : Int) :
    Nat → Nat → Nat → Nat → (Nat → Int) → Nat → Int
  | 0, _, _, _, fraglist => fraglist
  | fuel + 1, pos, field, subfield, fraglist =>
    if pos ≤ frag then
      if fragmap &&& field = subfield then
        fragacctLoop fragmap frag siz cnt fuel (pos + siz + 1) (field <<< siz <<< 1)
          (subfield <<< siz <<< 1) (update fraglist siz (fraglist siz + cnt))
      else
        fragacctLoop fragmap frag siz cnt fuel (pos + 1) (field <<< 1) (subfield <<< 1) fraglist
    else fraglist

/-- The loop of `ffs_fragacct` over the lengths, `n` of them from `siz` on. -/
def fragacctSizes (fragmap frag inblk : Nat) (cnt : Int) : Nat → Nat → (Nat → Int) → Nat → Int
  | 0, _, fraglist => fraglist
  | n + 1, siz, fraglist =>
    fragacctSizes fragmap frag inblk cnt n (siz + 1)
      (if inblk &&& (1 <<< (siz + frag % 8)) = 0 then fraglist
       else fragacctLoop (fragmap <<< 1) frag siz cnt frag siz (around.getD siz 0)
        (inside.getD siz 0) fraglist)

/-- `ffs_fragacct`. -/
def fragacct (frag fragmap : Nat) (fraglist : Nat → Int) (cnt : Int) : Nat → Int :=
  fragacctSizes fragmap frag ((fragtbl frag (BitVec.ofNat 8 fragmap)).toNat <<< 1) cnt (frag - 1) 1
    fraglist

/-! ## Bits and blocks of the map -/

theorem mapBit_update (map : Nat → BitVec 8) (b : Nat) (w : BitVec 8) (f : Nat) :
    mapBit (update map b w) f = if f / 8 = b then w.getLsbD (f % 8) else mapBit map f := by
  unfold mapBit
  by_cases hb : f / 8 = b
  · rw [if_pos hb, hb, update_self]
  · rw [if_neg hb, update_of_ne hb]

theorem one_bit {i j : Nat} (hbyte : j / 8 = i / 8) :
    (1#8 <<< (i % 8)).getLsbD (j % 8) = decide (j = i) := by
  have hall : ∀ r < 8, ∀ q < 8, (1#8 <<< r).getLsbD q = decide (q = r) := by decide
  rw [hall _ (Nat.mod_lt i (by decide)) _ (Nat.mod_lt j (by decide)), decide_eq_decide]
  omega

theorem mapBit_setMapBit (map : Nat → BitVec 8) (i j : Nat) :
    mapBit (setMapBit map i) j = (decide (j = i) || mapBit map j) := by
  rw [setMapBit, mapBit_update]
  by_cases hbyte : j / 8 = i / 8
  · rw [if_pos hbyte, BitVec.getLsbD_or, one_bit hbyte, mapBit, hbyte, Bool.or_comm]
  · have hne : j ≠ i := fun heq => hbyte (by rw [heq])
    rw [if_neg hbyte, decide_eq_false hne, Bool.false_or]

theorem mapBit_clrMapBit (map : Nat → BitVec 8) (i j : Nat) :
    mapBit (clrMapBit map i) j = (!decide (j = i) && mapBit map j) := by
  rw [clrMapBit, mapBit_update]
  by_cases hbyte : j / 8 = i / 8
  · have hlt : j % 8 < 8 := Nat.mod_lt j (by decide)
    rw [if_pos hbyte, BitVec.getLsbD_and, BitVec.getLsbD_not, decide_eq_true hlt, Bool.true_and,
      one_bit hbyte, mapBit, hbyte, Bool.and_comm]
  · have hne : j ≠ i := fun heq => hbyte (by rw [heq])
    rw [if_neg hbyte, decide_eq_false hne, Bool.not_false, Bool.true_and]

variable {frag b x k n pos : Nat} {free : Nat → Bool}

/-- The bits of a block are those of its fragments. -/
theorem block_bit (hfrag : frag ∈ [1, 2, 4, 8]) (h f : Nat) :
    (f / 8 = blockByte frag h ∧ (blockMask frag h).getLsbD (f % 8) = true) ↔ f / frag = h := by
  have hq : f % 8 < 8 := Nat.mod_lt f (by decide)
  have h1 : h &&& 0x1 = h % 2 := Nat.and_two_pow_sub_one_eq_mod h 1
  have h3 : h &&& 0x3 = h % 4 := Nat.and_two_pow_sub_one_eq_mod h 2
  have h7 : h &&& 0x7 = h % 8 := Nat.and_two_pow_sub_one_eq_mod h 3
  simp only [List.mem_cons, List.not_mem_nil, or_false] at hfrag
  rcases hfrag with rfl | rfl | rfl | rfl
  · change f / 8 = h >>> 3 ∧ (0x01#8 <<< (h &&& 0x7)).getLsbD (f % 8) = true ↔ f / 1 = h
    have hall : ∀ r < 8, ∀ q < 8, (0x01#8 <<< r).getLsbD q = decide (q = r) := by decide
    rw [h7, hall _ (Nat.mod_lt h (by decide)) _ hq, decide_eq_true_eq, Nat.shiftRight_eq_div_pow]
    omega
  · change f / 8 = h >>> 2 ∧ (0x03#8 <<< ((h &&& 0x3) <<< 1)).getLsbD (f % 8) = true ↔ f / 2 = h
    have hall : ∀ r < 4, ∀ q < 8, (0x03#8 <<< (r <<< 1)).getLsbD q = decide (q / 2 = r) := by decide
    rw [h3, hall _ (Nat.mod_lt h (by decide)) _ hq, decide_eq_true_eq, Nat.shiftRight_eq_div_pow]
    omega
  · change f / 8 = h >>> 1 ∧ (0x0f#8 <<< ((h &&& 0x1) <<< 2)).getLsbD (f % 8) = true ↔ f / 4 = h
    have hall : ∀ r < 2, ∀ q < 8, (0x0f#8 <<< (r <<< 2)).getLsbD q = decide (q / 4 = r) := by decide
    rw [h1, hall _ (Nat.mod_lt h (by decide)) _ hq, decide_eq_true_eq, Nat.shiftRight_eq_div_pow]
    omega
  change f / 8 = h ∧ (0xff#8).getLsbD (f % 8) = true ↔ f / 8 = h
  have hall : ∀ q < 8, (0xff#8).getLsbD q = true := by decide
  rw [hall _ hq]
  exact and_iff_left rfl

theorem mapBit_clrblock (hfrag : frag ∈ [1, 2, 4, 8]) (cp : Nat → BitVec 8) (h f : Nat) :
    mapBit (clrblock frag cp h) f = (!decide (f / frag = h) && mapBit cp f) := by
  rw [clrblock, mapBit_update]
  by_cases hbyte : f / 8 = blockByte frag h
  · have hlt : f % 8 < 8 := Nat.mod_lt f (by decide)
    have hbit : (blockMask frag h).getLsbD (f % 8) = decide (f / frag = h) := by
      rw [Bool.eq_iff_iff, decide_eq_true_eq, ← block_bit hfrag]
      exact (and_iff_right hbyte).symm
    rw [if_pos hbyte, BitVec.getLsbD_and, BitVec.getLsbD_not, decide_eq_true hlt, Bool.true_and,
      hbit, mapBit, hbyte, Bool.and_comm]
  · have hne : ¬ f / frag = h := fun heq => hbyte ((block_bit hfrag h f).mpr heq).1
    rw [if_neg hbyte, decide_eq_false hne, Bool.not_false, Bool.true_and]

theorem mapBit_setblock (hfrag : frag ∈ [1, 2, 4, 8]) (cp : Nat → BitVec 8) (h f : Nat) :
    mapBit (setblock frag cp h) f = (decide (f / frag = h) || mapBit cp f) := by
  rw [setblock, mapBit_update]
  by_cases hbyte : f / 8 = blockByte frag h
  · have hbit : (blockMask frag h).getLsbD (f % 8) = decide (f / frag = h) := by
      rw [Bool.eq_iff_iff, decide_eq_true_eq, ← block_bit hfrag]
      exact (and_iff_right hbyte).symm
    rw [if_pos hbyte, BitVec.getLsbD_or, hbit, mapBit, hbyte, Bool.or_comm]
  · have hne : ¬ f / frag = h := fun heq => hbyte ((block_bit hfrag h f).mpr heq).1
    rw [if_neg hbyte, decide_eq_false hne, Bool.false_or]

/-- The fragments of a block are the numbers that are divided to its number. -/
theorem div_block (hpos : 0 < frag) (b f : Nat) : f / frag = b ↔ ∃ j < frag, f = b * frag + j := by
  constructor
  · intro h
    have hdiv := Nat.div_add_mod f frag
    rw [h, Nat.mul_comm] at hdiv
    exact ⟨f % frag, Nat.mod_lt f hpos, hdiv.symm⟩
  intro h
  rcases h with ⟨j, hj, rfl⟩
  rw [Nat.add_comm, Nat.add_mul_div_right _ _ hpos, Nat.div_eq_of_lt hj, Nat.zero_add]

/-- No fragment of the block is free. -/
def AllClear (free : Nat → Bool) (frag b : Nat) : Prop := ∀ j < frag, free (b * frag + j) = false

section

variable (hfrag : frag ∈ [1, 2, 4, 8]) (cp : Nat → BitVec 8) (h : Nat)
include hfrag cp h

/-- The bits of a block in its byte are those of its fragments. -/
theorem block_bits (v : Bool) :
    (∀ q < 8, (blockMask frag h).getLsbD q = true → (cp (blockByte frag h)).getLsbD q = v) ↔
      ∀ j < frag, mapBit cp (h * frag + j) = v := by
  have hfpos : ∀ frag ∈ [1, 2, 4, 8], 0 < frag := by decide
  constructor
  · intro hbits j hj
    rcases (block_bit hfrag h (h * frag + j)).mpr
      ((div_block (hfpos _ hfrag) h _).mpr ⟨j, hj, rfl⟩) with ⟨hbyte, hbit⟩
    rw [mapBit, hbyte]
    exact hbits _ (Nat.mod_lt _ (by decide)) hbit
  intro hfrags q hq hbit
  have hplace : (blockByte frag h * 8 + q) / 8 = blockByte frag h := by omega
  have hmod : (blockByte frag h * 8 + q) % 8 = q := by omega
  rcases (div_block (hfpos _ hfrag) h _).mp ((block_bit hfrag h (blockByte frag h * 8 + q)).mp
    ⟨hplace, by rw [hmod]; exact hbit⟩) with ⟨j, hj, heq⟩
  have := hfrags j hj
  rwa [← heq, mapBit, hplace, hmod] at this

theorem isblock_iff :
    isblock frag cp h = true ↔ WholeFree (mapBit cp) frag h := by
  rw [isblock, beq_iff_eq, WholeFree, ← block_bits hfrag, BitVec.eq_of_getLsbD_eq_iff]
  simp only [BitVec.getLsbD_and, Bool.and_eq_right_iff_imp]

theorem isfreeblock_iff :
    isfreeblock frag cp h = true ↔ AllClear (mapBit cp) frag h := by
  rw [isfreeblock, beq_iff_eq, AllClear, ← block_bits hfrag, BitVec.eq_of_getLsbD_eq_iff]
  refine forall₂_congr fun q _ => ?_
  rw [BitVec.getLsbD_and, show BitVec.getLsbD (0 : BitVec 8) q = false from BitVec.getLsbD_zero]
  cases (blockMask frag h).getLsbD q <;> simp

end

/-! ## The counts of one block -/

/-- What a block counts for in `cs_nbfree`. -/
def wholeOf (free : Nat → Bool) (frag b : Nat) : Int := if WholeFree free frag b then 1 else 0

/-- What a block counts for in `cs_nffree`. -/
def looseOf (free : Nat → Bool) (frag b : Nat) : Int :=
  if WholeFree free frag b then 0
  else ((Finset.range frag).filter (fun j => free (b * frag + j) = true)).card

/-- What a block counts for in `cg_frsum`. -/
def runsOf (free : Nat → Bool) (frag b k : Nat) : Int :=
  ((Finset.range frag).filter (fun pos => MaxRun free frag (b * frag) pos k)).card

/-- How often the loop over the places counts. -/
def fragMatches (fragmap frag siz : Nat) : Nat → Nat → Nat → Nat → Nat
  | 0, _, _, _ => 0
  | fuel + 1, pos, field, subfield =>
    if pos ≤ frag then
      if fragmap &&& field = subfield then
        fragMatches fragmap frag siz fuel (pos + siz + 1) (field <<< siz <<< 1)
          (subfield <<< siz <<< 1) + 1
      else fragMatches fragmap frag siz fuel (pos + 1) (field <<< 1) (subfield <<< 1)
    else 0

theorem fragacctLoop_eq (fragmap frag siz : Nat) (cnt : Int) (fuel : Nat) :
    ∀ (pos field subfield : Nat) (l : Nat → Int),
      fragacctLoop fragmap frag siz cnt fuel pos field subfield l = update l siz
          (l siz + fragMatches fragmap frag siz fuel pos field subfield * cnt) := by
  induction fuel with
  | zero =>
    intro pos field subfield l
    simp only [fragacctLoop, fragMatches, Nat.cast_zero, Int.zero_mul, Int.add_zero, update_eq_self]
  | succ fuel ih =>
    intro pos field subfield l
    unfold fragacctLoop fragMatches
    by_cases hpos : pos ≤ frag
    · rw [if_pos hpos, if_pos hpos]
      by_cases hfit : fragmap &&& field = subfield
      · rw [if_pos hfit, if_pos hfit, ih, update_self, update_idem]
        congr 1
        push_cast
        ring
      · rw [if_neg hfit, if_neg hfit, ih]
    · rw [if_neg hpos, if_neg hpos]
      simp only [Nat.cast_zero, Int.zero_mul, Int.add_zero, update_eq_self]

/-- The loop from a place on counts the runs from there on, when no run starts where it skips. -/
theorem fragMatches_eq {x siz : Nat} (hskip : ∀ p n, runAt x siz p = true → n < siz →
      p + n + 1 + siz ≤ frag → runAt x siz (p + n + 1) ≠ true) (fuel : Nat) :
    ∀ q, frag < fuel + (siz + q) → fragMatches (x <<< 1) frag siz fuel (siz + q)
        (around.getD siz 0 <<< q) (inside.getD siz 0 <<< q) +
      Nat.count (fun p => runAt x siz p = true) q =
        Nat.count (fun p => runAt x siz p = true) (max q (frag + 1 - siz)) := by
  induction fuel with
  | zero =>
    intro q hq
    rw [fragMatches, Nat.zero_add, Nat.max_eq_left (by omega)]
  | succ fuel ih =>
    intro q hq
    rw [fragMatches]
    by_cases hle : siz + q ≤ frag
    · rw [if_pos hle, Nat.max_eq_right (by omega)]
      split
      case isTrue hfit =>
        have hrun : runAt x siz q = true := decide_eq_true hfit
        have hone : ∀ n ≤ siz, q + n + siz ≤ frag →
            Nat.count (fun p => runAt x siz p = true) (q + n + 1) =
              Nat.count (fun p => runAt x siz p = true) q + 1 := by
          intro n hn hin
          induction n with
          | zero => rw [Nat.add_zero, Nat.count_succ, if_pos hrun]
          | succ n ihn =>
            rw [← Nat.add_assoc, Nat.count_succ, ihn (by omega) (by omega),
              if_neg (hskip q n hrun hn hin)]
        have hrest := ih (q + siz + 1) (by omega)
        rw [show siz + (q + siz + 1) = siz + q + siz + 1 by omega, Nat.shiftLeft_add,
          Nat.shiftLeft_add, Nat.shiftLeft_add (inside.getD siz 0), Nat.shiftLeft_add _ q] at hrest
        rcases Nat.le_total (q + siz + 1) (frag + 1 - siz) with hmore | hend
        · rw [Nat.max_eq_right hmore, hone siz le_rfl (by omega)] at hrest
          omega
        · rw [Nat.max_eq_left hend] at hrest
          have hlast := hone (frag - siz - q) (by omega) (by omega)
          rw [show q + (frag - siz - q) + 1 = frag + 1 - siz by omega] at hlast
          omega
      case isFalse hfit =>
        have hno : ¬ runAt x siz q = true := fun hrun => hfit (of_decide_eq_true hrun)
        have hrest := ih (q + 1) (by omega)
        rwa [← Nat.add_assoc, Nat.shiftLeft_add, Nat.shiftLeft_add, Nat.count_succ, if_neg hno,
          Nat.add_zero, Nat.max_eq_right (by omega)] at hrest
    · rw [if_neg hle, Nat.zero_add, Nat.max_eq_left (by omega)]

/-- The test of `ffs_fragacct` reads the entry of the table as the search does. -/
theorem inblk_test {siz : Nat} (hfrag : frag ∈ [1, 2, 4, 8]) (hpos : 0 < siz) (hlt : siz < frag)
    (t : BitVec 8) :
    (t.toNat <<< 1) &&& (1 <<< (siz + frag % 8)) = 0 ↔ t &&& fragMask frag siz = 0 := by
  rw [and_fragMask hfrag hlt.le hpos, and_bit_eq_zero, Nat.testBit_shiftLeft,
    decide_eq_true (by omega), Bool.true_and, show siz + frag % 8 - 1 = siz - 1 + frag % 8 by omega]

/-- A block read off the map, as a number. -/
def BlockBits (free : Nat → Bool) (frag b x : Nat) : Prop :=
  ∀ j, x.testBit j = (decide (j < frag) && free (b * frag + j))

theorem BlockBits.lt (h : BlockBits free frag b x) : x < 2 ^ frag := by
  refine Nat.lt_pow_two_of_testBit x (fun j hj => ?_)
  rw [h j, decide_eq_false (by omega), Bool.false_and]

section

variable (hfrag : frag ∈ [1, 2, 4, 8]) (h : BlockBits free frag b x)
include hfrag h

/-- What one length adds to its count. -/
theorem runsOf_eq (hpos : 0 < k)
    (hlt : k < frag) : runsOf free frag b k =
      fragMatches (x <<< 1) frag k frag k (around.getD k 0) (inside.getD k 0) := by
  have hle8 : ∀ frag ∈ [1, 2, 4, 8], frag ≤ 8 := by decide
  have hk8 := hle8 frag hfrag
  have hskip : ∀ p n, runAt x k p = true → n < k → p + n + 1 + k ≤ frag →
      runAt x k (p + n + 1) ≠ true := by
    intro p n hrun hn hin hnext
    have hfree := ((runAt_iff hpos (by omega) (by omega) h).mp hrun).2.1 n hn
    have hbound := ((runAt_iff hpos (by omega) hin h).mp hnext).2.2.1
    rw [← Nat.add_assoc, Nat.add_sub_cancel, ← Nat.add_assoc, hfree] at hbound
    simp at hbound
  have hcount := fragMatches_eq hskip frag 0 (by omega)
  rw [Nat.count_zero, Nat.zero_max, Nat.count_eq_card_filter_range] at hcount
  refine Eq.trans ?_ (congrArg Nat.cast hcount.symm)
  rw [runsOf]
  congr 2
  ext pos
  rw [Finset.mem_filter, Finset.mem_filter, Finset.mem_range, Finset.mem_range]
  constructor
  · intro hrun
    have hin := hrun.2.1
    exact ⟨by omega, (runAt_iff hpos (by omega) hin h).mpr hrun.2⟩
  · intro hrun
    exact ⟨by omega, (runAt_iff hpos (by omega) (by omega) h).mp hrun.2⟩

/-- A block whose entry in the table has no bit for a length has no run of it. -/
theorem runsOf_zero (hpos : 0 < k)
    (hlt : k < frag) (hnone : fragtbl frag (BitVec.ofNat 8 x) &&& fragMask frag k = 0) :
    runsOf free frag b k = 0 := by
  have hle8 : ∀ frag ∈ [1, 2, 4, 8], frag ≤ 8 ∧ 0 < 8 / frag := by decide
  rcases hle8 frag hfrag with ⟨hk8, hper⟩
  rw [runsOf, Int.natCast_eq_zero, Finset.card_eq_zero, Finset.filter_eq_empty_iff]
  intro pos _ hrun
  refine (fragtbl_iff hfrag hpos hlt.le (BitVec.ofNat 8 x)).mpr ⟨0, hper, pos, ?_⟩ hnone
  refine hrun.congr (fun j hj => ?_)
  have hbit : (BitVec.ofNat 8 x).getLsbD j = x.testBit j := by
    rw [BitVec.getLsbD_ofNat, decide_eq_true (by omega), Bool.true_and]
  rw [Nat.zero_mul, Nat.zero_add, hbit, h j, decide_eq_true hj, Bool.true_and]

/-- Each length changes its own count. -/
theorem fragacctSizes_apply (cnt : Int)
    (n : Nat) : ∀ (siz : Nat) (l : Nat → Int) (k : Nat), 0 < siz → siz + n ≤ frag →
    fragacctSizes x frag ((fragtbl frag (BitVec.ofNat 8 x)).toNat <<< 1) cnt n siz l k =
      if siz ≤ k ∧ k < siz + n then l k + runsOf free frag b k * cnt else l k := by
  induction n with
  | zero =>
    intro siz l k _ _
    rw [if_neg (by omega)]
    rfl
  | succ n ih =>
    intro siz l k hpos hle
    have hlt : siz < frag := by omega
    -- What the loop over the places leaves.
    have hstep : (if ((fragtbl frag (BitVec.ofNat 8 x)).toNat <<< 1) &&&
          (1 <<< (siz + frag % 8)) = 0 then l
        else fragacctLoop (x <<< 1) frag siz cnt frag siz (around.getD siz 0) (inside.getD siz 0)
          l) = update l siz (l siz + runsOf free frag b siz * cnt) := by
      by_cases hnone : ((fragtbl frag (BitVec.ofNat 8 x)).toNat <<< 1) &&&
          (1 <<< (siz + frag % 8)) = 0
      · rw [if_pos hnone, runsOf_zero hfrag h hpos hlt ((inblk_test hfrag hpos hlt _).mp hnone),
          Int.zero_mul, Int.add_zero, update_eq_self]
      · rw [if_neg hnone, fragacctLoop_eq, runsOf_eq hfrag h hpos hlt]
    unfold fragacctSizes
    rw [hstep, ih (siz + 1) _ k (by omega) (by omega)]
    by_cases hk : k = siz
    · rw [hk, if_neg (by omega), if_pos (by omega), update_self]
    rw [update_of_ne hk]
    by_cases hin : siz + 1 ≤ k ∧ k < siz + 1 + n
    · rw [if_pos hin, if_pos (by omega)]
    · rw [if_neg hin, if_neg (by omega)]

theorem fragacct_apply (l : Nat → Int)
    (cnt : Int) (hpos : 0 < k) (hlt : k < frag) :
    fragacct frag x l cnt k = l k + runsOf free frag b k * cnt := by
  rw [fragacct, fragacctSizes_apply hfrag h cnt (frag - 1) 1 l k (by decide) (by omega),
    if_pos (by omega)]

end

/-- The bits of a block that the source reads off the map. -/
theorem blkmap_bits (hfrag : frag ∈ [1, 2, 4, 8]) (map : Nat → BitVec 8) (b : Nat) :
    BlockBits (mapBit map) frag b (blkmap frag map (b * frag)) := by
  intro j
  have hin : ∀ frag ∈ [1, 2, 4, 8], ∀ b : Nat, b * frag % 8 + frag ≤ 8 := by
    intro frag hfrag b
    simp only [List.mem_cons, List.not_mem_nil, or_false] at hfrag
    rcases hfrag with rfl | rfl | rfl | rfl
    · omega
    · omega
    · omega
    · omega
  have hb := hin frag hfrag b
  rw [blkmap, testBit_block hfrag, Nat.testBit_shiftRight]
  by_cases hj : j < frag
  · rw [mapBit, show (b * frag + j) / 8 = b * frag / 8 by omega,
      show (b * frag + j) % 8 = b * frag % 8 + j by omega]
    rfl
  · rw [decide_eq_false hj, Bool.false_and, Bool.false_and]

/-! ## The counts as sums over the blocks -/

theorem sum_blocks (n m : Nat) (g : Nat → Int) : ∑ f ∈ Finset.range (n * m), g f =
      ∑ b ∈ Finset.range n, ∑ j ∈ Finset.range m, g (b * m + j) := by
  induction n with
  | zero => rw [Nat.zero_mul, Finset.range_zero, Finset.sum_empty, Finset.sum_empty]
  | succ n ih => rw [Nat.succ_mul, Finset.sum_range_add, ih, Finset.sum_range_succ]

theorem nbfree_eq (free : Nat → Bool) (frag n : Nat) :
    (((Finset.range n).filter (fun b => WholeFree free frag b)).card : Int) =
      ∑ b ∈ Finset.range n, wholeOf free frag b := by
  rw [Finset.natCast_card_filter]
  rfl

theorem nffree_eq (free : Nat → Bool) (hpos : 0 < frag) (n : Nat) :
    (((Finset.range (n * frag)).filter
      (fun f => free f = true ∧ ¬ WholeFree free frag (f / frag))).card : Int) =
      ∑ b ∈ Finset.range n, looseOf free frag b := by
  rw [Finset.natCast_card_filter, sum_blocks]
  refine Finset.sum_congr rfl (fun b _ => ?_)
  have hdiv : ∀ j ∈ Finset.range frag, (b * frag + j) / frag = b := fun j hj =>
    (div_block hpos b _).mpr ⟨j, Finset.mem_range.mp hj, rfl⟩
  rw [looseOf]
  by_cases hwhole : WholeFree free frag b
  · rw [if_pos hwhole]
    refine Finset.sum_eq_zero (fun j hj => ?_)
    rw [hdiv j hj]
    exact if_neg (fun hc => hc.2 hwhole)
  rw [if_neg hwhole, Finset.natCast_card_filter]
  refine Finset.sum_congr rfl (fun j hj => ?_)
  rw [hdiv j hj]
  exact if_congr (and_iff_left hwhole) rfl rfl

theorem frsum_eq (free : Nat → Bool) (frag n k : Nat) :
    (((Finset.range n ×ˢ Finset.range frag).filter
      (fun p => MaxRun free frag (p.1 * frag) p.2 k)).card : Int) =
      ∑ b ∈ Finset.range n, runsOf free frag b k := by
  rw [Finset.natCast_card_filter, Finset.sum_product]
  refine Finset.sum_congr rfl (fun b _ => ?_)
  rw [runsOf, Finset.natCast_card_filter]

/-- What a block counts for only depends on its own bits. -/
theorem counts_congr {free' : Nat → Bool}
    (h : ∀ j < frag, free' (b * frag + j) = free (b * frag + j)) :
    wholeOf free' frag b = wholeOf free frag b ∧ looseOf free' frag b = looseOf free frag b ∧
      ∀ k, runsOf free' frag b k = runsOf free frag b k := by
  have hwhole : WholeFree free' frag b ↔ WholeFree free frag b :=
    forall_congr' (fun j => forall_congr' (fun hj => by rw [h j hj]))
  refine ⟨?_, ?_, fun k => ?_⟩
  · rw [wholeOf, wholeOf]
    exact if_congr hwhole rfl rfl
  · rw [looseOf, looseOf, Finset.filter_congr (fun j hj => by rw [h j (Finset.mem_range.mp hj)])]
    exact if_congr hwhole rfl rfl
  · rw [runsOf, runsOf, Finset.filter_congr (fun pos _ =>
      ⟨fun hrun => hrun.congr (fun j hj => (h j hj).symm), fun hrun => hrun.congr h⟩)]

/-- A sum of which one term changes. -/
theorem sum_change (hb : b < n) {w w' : Nat → Int} (h : ∀ c, c ≠ b → w' c = w c) :
    ∑ c ∈ Finset.range n, w' c = ∑ c ∈ Finset.range n, w c + (w' b - w b) := by
  have hmem : b ∈ Finset.range n := Finset.mem_range.mpr hb
  rw [← Finset.add_sum_erase _ w' hmem, ← Finset.add_sum_erase _ w hmem,
    Finset.sum_congr rfl (fun c hc => h c (Finset.ne_of_mem_erase hc))]
  ring

/-- The map changes inside one block, and each count by what that block counts for. -/
theorem Accounted.change {fs : Fs} {cg : Cg} (h : Accounted fs cg) (hpos : 0 < fs.frag)
    (hb : b < fs.mapBlks) {map : Nat → BitVec 8} {nbfree nffree : Int} {frsum : Nat → Int}
    (hsame : ∀ f, f / fs.frag ≠ b → mapBit map f = mapBit cg.blksfree f)
    (hin : ∀ j < fs.frag, mapBit map (b * fs.frag + j) = true → b * fs.frag + j < cg.ndblk)
    (hnb : nbfree = cg.nbfree +
      (wholeOf (mapBit map) fs.frag b - wholeOf (mapBit cg.blksfree) fs.frag b))
    (hnf : nffree = cg.nffree +
      (looseOf (mapBit map) fs.frag b - looseOf (mapBit cg.blksfree) fs.frag b))
    (hfr : ∀ k, 0 < k → k < fs.frag → frsum k = cg.frsum k +
      (runsOf (mapBit map) fs.frag b k - runsOf (mapBit cg.blksfree) fs.frag b k)) :
    Accounted fs
      { cg with blksfree := map, nbfree := nbfree, nffree := nffree, frsum := frsum } := by
  have hother : ∀ c, c ≠ b → ∀ j < fs.frag,
      mapBit map (c * fs.frag + j) = mapBit cg.blksfree (c * fs.frag + j) := by
    intro c hc j hj
    refine hsame _ ?_
    rw [(div_block hpos c _).mpr ⟨j, hj, rfl⟩]
    exact hc
  refine ⟨fun f hf hfree => ?_, h.ndblk, h.rotor, ?_, ?_, fun k hk hlt => ?_⟩
  · by_cases hfb : f / fs.frag = b
    · rcases (div_block hpos b f).mp hfb with ⟨j, hj, rfl⟩
      exact hin j hj hfree
    · exact h.inMap f hf ((hsame f hfb).symm.trans hfree)
  · refine Eq.trans ?_ (nbfree_eq (mapBit map) fs.frag fs.mapBlks).symm
    rw [sum_change hb (fun c hc => (counts_congr (hother c hc)).1), ← nbfree_eq]
    exact hnb.trans (by rw [h.nbfree]; rfl)
  · refine Eq.trans ?_ (nffree_eq (mapBit map) hpos fs.mapBlks).symm
    rw [sum_change hb (fun c hc => (counts_congr (hother c hc)).2.1), ← nffree_eq _ hpos]
    exact hnf.trans (by rw [h.nffree]; rfl)
  refine Eq.trans ?_ (frsum_eq (mapBit map) fs.frag fs.mapBlks k).symm
  rw [sum_change hb (fun c hc => (counts_congr (hother c hc)).2.2 k), ← frsum_eq]
  exact (hfr k hk hlt).trans (by rw [h.frsum k hk hlt]; rfl)

/-! ## What the changes of the allocator count for -/

section

variable {free free' : Nat → Bool} {frag b : Nat}

/-- A maximal run by the places of its fragments in the block. -/
theorem maxRun_iff : MaxRun free frag (b * frag) pos k ↔
    MaximalRun (fun j => free (b * frag + j)) frag k pos := by
  refine and_congr_right (fun _ => and_congr ?_ (and_congr ?_ (by rw [Nat.add_assoc])))
  · constructor
    · intro h j hj hj'
      have := h (j - pos) (by omega)
      rwa [Nat.add_assoc, Nat.add_sub_cancel' hj] at this
    intro h j hj
    rw [Nat.add_assoc]
    exact h _ (by omega) (by omega)
  by_cases hzero : pos = 0
  · simp only [hzero, true_or]
  · rw [Nat.add_sub_assoc (by omega)]

/-- What a block counts for are its runs, read as a map of its own. -/
theorem runsOf_eq_count (hk : 0 < k) :
    runsOf free frag b k = (runs (window (fun j => free (b * frag + j)) 0 frag)).count k := by
  classical
  rw [count_runs _ hk, runsOf]
  exact congrArg (fun l => (Finset.card l : Int)) (Finset.filter_congr (fun _ _ => maxRun_iff))

/-- A block that is entirely free. -/
theorem wholeFree_counts (h : WholeFree free frag b) :
    wholeOf free frag b = 1 ∧ looseOf free frag b = 0 ∧
      ∀ k, 0 < k → k < frag → runsOf free frag b k = 0 := by
  refine ⟨if_pos h, if_pos h, fun k hk hlt => ?_⟩
  rw [runsOf_eq_count hk, window_true (fun j _ hj => h j hj), runs_replicate, count_piece hk,
    if_neg (by omega)]
  rfl

/-- A block of which nothing is free. -/
theorem allClear_counts (hpos : 0 < frag) (h : AllClear free frag b) :
    wholeOf free frag b = 0 ∧ looseOf free frag b = 0 ∧ ∀ k, 0 < k → runsOf free frag b k = 0 := by
  have hnot : ¬ WholeFree free frag b := by
    intro hwhole
    have := hwhole 0 hpos
    rw [h 0 hpos] at this
    exact Bool.false_ne_true this
  refine ⟨if_neg hnot, ?_, fun k hk => ?_⟩
  · rw [looseOf, if_neg hnot, Int.natCast_eq_zero, Finset.card_eq_zero, Finset.filter_eq_empty_iff]
    intro j hj hfree
    rw [h j (Finset.mem_range.mp hj)] at hfree
    exact Bool.false_ne_true hfree
  rw [runsOf, Int.natCast_eq_zero, Finset.card_eq_zero, Finset.filter_eq_empty_iff]
  intro pos hlt hrun
  have := hrun.2.1 0 hk
  rw [Nat.add_zero, h pos (Finset.mem_range.mp hlt)] at this
  exact Bool.false_ne_true this

/-- A block of which the first `size` fragments are taken. -/
theorem tail_counts {size : Nat} (hpos : 0 < size) (hlt : size < frag)
    (h : ∀ j < frag, free (b * frag + j) = decide (size ≤ j)) :
    wholeOf free frag b = 0 ∧ looseOf free frag b = (frag : Int) - size ∧
      ∀ k, 0 < k → runsOf free frag b k = if k = frag - size then 1 else 0 := by
  have hnot : ¬ WholeFree free frag b := by
    intro hwhole
    have := hwhole 0 (by omega)
    rw [h 0 (by omega), decide_eq_true_eq] at this
    omega
  refine ⟨if_neg hnot, ?_, fun k hk => ?_⟩
  · have hset : (Finset.range frag).filter (fun j => free (b * frag + j) = true) =
        Finset.Ico size frag := by
      ext j
      rw [Finset.mem_filter, Finset.mem_range, Finset.mem_Ico]
      constructor
      · intro hj
        rw [h j hj.1, decide_eq_true_eq] at hj
        exact hj.symm
      intro hj
      rw [h j hj.2, decide_eq_true_eq]
      exact hj.symm
    rw [looseOf, if_neg hnot, hset, Nat.card_Ico]
    omega
  -- The only run begins behind what is taken and goes on to the end.
  have hruns := runs_around (f := fun j => free (b * frag + j)) (N := frag) (s := size)
    (m := frag - size) (by omega)
    (fun j hj hlt' => by rw [h j (by omega), decide_eq_true hj])
    (fun _ => by rw [h _ (by omega), decide_eq_false (by omega)]) (fun hlt' => by omega)
  have hnone := runs_append_clear (f := fun j => free (b * frag + j)) (s := 0) (e := size)
    (fun j _ hj => by rw [h j (by omega), decide_eq_false (by omega)]) []
  rw [runsOf_eq_count hk, hruns, ← List.nil_append (window _ 0 size), hnone, runs_nil,
    List.nil_append, Nat.add_sub_cancel' (by omega), window_self, runs_nil, List.append_nil,
    count_piece hk]
  split <;> rfl

/-- The free fragments of a block, when some of a row are taken. -/
theorem taken_card (hin : pos + n ≤ frag) (hrun : ∀ j < n, free (b * frag + pos + j) = true)
    (h : ∀ j < frag, free' (b * frag + j) =
      (free (b * frag + j) && !decide (pos ≤ j ∧ j < pos + n))) :
    (((Finset.range frag).filter (fun j => free' (b * frag + j) = true)).card : Int) =
      ((Finset.range frag).filter (fun j => free (b * frag + j) = true)).card - n := by
  have hset : (Finset.range frag).filter (fun j => free (b * frag + j) = true) =
      (Finset.range frag).filter (fun j => free' (b * frag + j) = true) ∪
        Finset.Ico pos (pos + n) := by
    ext j
    rw [Finset.mem_union, Finset.mem_filter, Finset.mem_filter, Finset.mem_range, Finset.mem_Ico]
    constructor
    · intro hj
      by_cases hrow : pos ≤ j ∧ j < pos + n
      · exact Or.inr hrow
      · rw [h j hj.1, decide_eq_false hrow, hj.2]
        exact Or.inl ⟨hj.1, rfl⟩
    intro hj
    rcases hj with hj | hj
    · rw [h j hj.1, Bool.and_eq_true] at hj
      exact ⟨hj.1, hj.2.1⟩
    have := hrun (j - pos) (by omega)
    rw [Nat.add_assoc, Nat.add_sub_cancel' hj.1] at this
    exact ⟨by omega, this⟩
  have hdis : Disjoint ((Finset.range frag).filter (fun j => free' (b * frag + j) = true))
      (Finset.Ico pos (pos + n)) := by
    rw [Finset.disjoint_left]
    intro j hj hrow
    rw [Finset.mem_filter, Finset.mem_range] at hj
    rw [Finset.mem_Ico] at hrow
    rw [h j hj.1, decide_eq_true hrow, Bool.not_true, Bool.and_false] at hj
    exact Bool.false_ne_true hj.2
  rw [hset, Finset.card_union_of_disjoint hdis, Nat.card_Ico]
  push_cast
  omega

/-- A run of a block that is not entirely free loses its first `n` fragments. What
    is left of it, if anything, is a run. -/
theorem takeRun_counts {a : Nat} (hmax : MaxRun free frag (b * frag) pos a) (hlt : a < frag)
    (hpos : 0 < n) (hle : n ≤ a) (h : ∀ j < frag, free' (b * frag + j) =
      (free (b * frag + j) && !decide (pos ≤ j ∧ j < pos + n))) :
    wholeOf free' frag b = wholeOf free frag b ∧ looseOf free' frag b = looseOf free frag b - n ∧
      ∀ k, 0 < k → runsOf free' frag b k = runsOf free frag b k - (if k = a then 1 else 0) +
        (if n ≠ a ∧ k = a - n then 1 else 0) := by
  rcases maxRun_iff.mp hmax with ⟨hin, hfree, hbefore, hbehind⟩
  -- Neither before nor after is the block entirely free.
  have hclear : ∃ j < frag, free (b * frag + j) = false := by
    by_cases hend : pos + a = frag
    · exact ⟨pos - 1, by omega, hbefore.resolve_left (by omega)⟩
    · exact ⟨pos + a, by omega, hbehind.resolve_left hend⟩
  rcases hclear with ⟨q, hq, hqclear⟩
  have hnot : ¬ WholeFree free frag b := fun hwhole => by
    have := hwhole q hq
    rw [hqclear] at this
    exact Bool.false_ne_true this
  have hnot' : ¬ WholeFree free' frag b := fun hwhole => by
    have := hwhole q hq
    rw [h q hq, hqclear, Bool.false_and] at this
    exact Bool.false_ne_true this
  refine ⟨by rw [wholeOf, wholeOf, if_neg hnot, if_neg hnot'], ?_, fun k hk => ?_⟩
  · rw [looseOf, looseOf, if_neg hnot, if_neg hnot']
    exact taken_card (by omega) (fun j hj => hmax.2.1 j (by omega)) h
  -- The runs on either side of it are the same.
  have hbefore' := runs_around hin hfree (fun hlt => hbefore.resolve_left (by omega))
    (fun hlt => hbehind.resolve_left (by omega))
  have hkeep : ∀ j < frag, ¬ (pos ≤ j ∧ j < pos + n) →
      free' (b * frag + j) = free (b * frag + j) := by
    intro j hj hout
    rw [h j hj, decide_eq_false hout, Bool.not_false, Bool.and_true]
  have hgone : ∀ j, pos ≤ j → j < pos + n → free' (b * frag + j) = false := by
    intro j hge hlt
    rw [h j (by omega), decide_eq_true ⟨hge, hlt⟩, Bool.not_true, Bool.and_false]
  have hrest := runs_around (f := fun j => free' (b * frag + j)) (N := frag) (s := pos + n)
    (m := a - n) (by omega)
    (fun j hj hj' => (hkeep j (by omega) (by omega)).trans (hfree j (by omega) (by omega)))
    (fun _ => hgone _ (by omega) (by omega)) (fun hj => ?_)
  · have hfront : runs (window (fun j => free' (b * frag + j)) 0 (pos + n)) =
        runs (window (fun j => free (b * frag + j)) 0 pos) := by
      rw [← window_append _ zero_le (Nat.le_add_right pos n), runs_append_clear hgone]
      exact congrArg runs (window_congr (fun j _ hj => hkeep j (by omega) (by omega)))
    have hend : window (fun j => free' (b * frag + j)) (pos + n + (a - n)) frag =
        window (fun j => free (b * frag + j)) (pos + a) frag := by
      rw [show pos + n + (a - n) = pos + a by omega]
      exact window_congr (fun j hj hj' => hkeep j hj' (by omega))
    rw [hfront, hend] at hrest
    rw [runsOf_eq_count hk, runsOf_eq_count hk, hrest, hbefore']
    simp only [List.count_append, count_piece hk]
    have hiff : n ≠ a ∧ k = a - n ↔ k = a - n := and_iff_right_of_imp (by omega)
    simp only [hiff]
    push_cast
    ring
  have hplace : pos + n + (a - n) = pos + a := by omega
  rw [hplace] at hj ⊢
  exact (hkeep _ hj (by omega)).trans (hbehind.resolve_left (by omega))

/-- Some fragments of a block are given back. If that makes it entirely free, they
    and the others of the block are no longer counted one by one. -/
theorem give_counts (hpos : 0 < n) (hin : pos + n ≤ frag)
    (hrun : ∀ j < n, free (b * frag + pos + j) = false) (h : ∀ j < frag, free' (b * frag + j) =
      (free (b * frag + j) || decide (pos ≤ j ∧ j < pos + n))) :
    wholeOf free frag b = 0 ∧
      looseOf free' frag b = looseOf free frag b + n - frag * wholeOf free' frag b := by
  have hnot : ¬ WholeFree free frag b := by
    intro hwhole
    have := hwhole pos (by omega)
    have hclear := hrun 0 hpos
    rw [Nat.add_zero] at hclear
    rw [hclear] at this
    exact Bool.false_ne_true this
  -- Seen the other way round, these fragments are taken.
  have hcard : (((Finset.range frag).filter (fun j => free (b * frag + j) = true)).card : Int) =
      ((Finset.range frag).filter (fun j => free' (b * frag + j) = true)).card - n :=
    taken_card hin (fun j hj => by
      rw [Nat.add_assoc, h _ (by omega), decide_eq_true (by omega), Bool.or_true])
    (fun j hj => by
      rw [h j hj]
      by_cases hrow : pos ≤ j ∧ j < pos + n
      · have := hrun (j - pos) (by omega)
        rw [Nat.add_assoc, Nat.add_sub_cancel' hrow.1] at this
        rw [this, decide_eq_true hrow]
        rfl
      · rw [decide_eq_false hrow, Bool.or_false, Bool.not_false, Bool.and_true])
  refine ⟨if_neg hnot, ?_⟩
  rw [looseOf, looseOf, if_neg hnot, wholeOf]
  by_cases hwhole : WholeFree free' frag b
  · rw [if_pos hwhole, if_pos hwhole, hcard]
    have hall : (Finset.range frag).filter (fun j => free' (b * frag + j) = true) =
        Finset.range frag :=
      Finset.filter_true_of_mem (fun j hj => hwhole j (Finset.mem_range.mp hj))
    rw [hall, Finset.card_range]
    ring
  · rw [if_neg hwhole, if_neg hwhole, hcard]
    ring

end

end FreeBSDKern.Ffs
