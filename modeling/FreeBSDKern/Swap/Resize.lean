import FreeBSDKern.Swap.Refine

/-!
# Resizing the Block List

A list is resized by making a new one, of another height if need be, and freeing
in it what is free in the old one. The copy walks the old tree from the left: a
leaf that is entirely free and a meta node that is entirely free are freed at
once, other leaves bit by bit, and a meta node without free blocks is passed by.
A smaller list ends the walk in the middle of some leaf, and of a larger one the
blocks behind the old end are freed if the caller asks for it.

Since the walk goes upwards, all that is to be known between two frees is how far
it has come: below that place the new list has the free blocks of the old one,
and nothing is free from there on. `CopiedTo` says this, and every node of the
old tree moves the place by the blocks it stands for. As nothing is free ahead,
no free meets a free block, so none of the panics is reached.

## Main definitions

* `blstCopy`, `blistResize`: The functions of the source.
* `CopiedTo`: How far the copy has come.
* `Change`, `nextChange`, `ValidChange`: Runs in which the list is resized.
* `Kept`: What holds of every list such a run leads to.

## Theorems

* `blstCopy_spec`: Copying a subtree.
* `blistResize_spec`: Resizing one list.
* `blistResize_keeps_free`: Resizing the list any run leads to.
-/

namespace FreeBSDKern.Swap

open Lib Function

/-- The loop of `blst_copy` over the bits of a leaf. -/
def copyBits (v : BitVec 32) (blk count : Nat) : Nat → Nat → Blist → Option Blist
  | 0, _, dest => some dest
  | fuel + 1, i, dest =>
    if i < count then
      if v &&& ((1 : BitVec 32) <<< i) ≠ 0 then
        match blistFree dest (blk + i) 1 with
        | none => none
        | some dest => copyBits v blk count fuel (i + 1) dest
      else copyBits v blk count fuel (i + 1) dest
    else some dest

/-- The loop of `blst_copy` over the subtrees. -/
def copyLoop (sub : Nat → Nat → Nat → Blist → Option Blist) (m : Mem) (d scan : Nat) :
    Nat → Nat → Nat → Nat → Blist → Option Blist
  | 0, _, _, _, dest => some dest
  | fuel + 1, k, blk, count, dest =>
    if count = 0 then some dest
    else
      let i := child scan d k
      if (m i).bighint = -1 then some dest
      else if count ≥ radix d then
        match sub i blk (radix d) dest with
        | none => none
        | some dest =>
          copyLoop sub m d scan fuel (k + 1) (blk + radix d) (count - radix d) dest
      else
        match sub i blk count dest with
        | none => none
        | some dest => copyLoop sub m d scan fuel (k + 1) (blk + radix d) 0 dest

/-- `blst_copy`. -/
def blstCopy (m : Mem) : Nat → Nat → Nat → Nat → Blist → Option Blist
  | 0, scan, blk, count, dest =>
    let v := (m scan).bitmap
    if v = BitVec.allOnes 32 then blistFree dest blk count
    else if v ≠ 0 then copyBits v blk count bmapRadix 0 dest
    else some dest
  | d + 1, scan, blk, count, dest =>
    if (m scan).avail = 0 then some dest
    else if (m scan).avail = radix (d + 1) then
      if count < radix (d + 1) then blistFree dest blk count
      else blistFree dest blk (radix (d + 1))
    else copyLoop (blstCopy m d) m d scan metaRadix 0 blk count dest

/-- `blist_resize`. The memory for the new tree comes as it is. -/
def blistResize (save : Blist) (count : Nat) (freenew : Bool) (m : Mem) : Option Blist :=
  let newbl := blistCreate count m
  let count := if count > save.blocks then save.blocks else count
  match blstCopy save.root save.height 0 0 count newbl with
  | none => none
  | some newbl =>
    if freenew = true ∧ count < newbl.blocks then
      blistFree newbl count (newbl.blocks - count)
    else some newbl

/-- Below a place the new list has the free blocks of the old one, and nothing is
    free from there on. -/
structure CopiedTo (F : Nat → Bool) (blocks blk : Nat) (dest : Blist) : Prop where
  ok : Ok False dest
  blocks : dest.blocks = blocks
  free : ∀ i, i ∈ freeSet dest ↔ i < blk ∧ F i = true

/-- Blocks that are allocated need nothing. -/
theorem CopiedTo.pass {F : Nat → Bool} {blocks blk count : Nat} {dest : Blist}
    (h : CopiedTo F blocks blk dest)
    (hF : ∀ i, blk ≤ i → i < blk + count → F i = false) : CopiedTo F blocks (blk + count) dest := by
  refine ⟨h.ok, h.blocks, fun i => ?_⟩
  rw [h.free]
  refine ⟨fun hi => ⟨by omega, hi.2⟩, fun hi => ⟨?_, hi.2⟩⟩
  by_contra hlt
  have hno := hF i (by omega) hi.1
  rw [hi.2] at hno
  cases hno

/-- Blocks that are free are freed, which nothing that is free ahead prevents. -/
theorem CopiedTo.give {F : Nat → Bool} {blocks blk count : Nat} {dest : Blist}
    (h : CopiedTo F blocks blk dest) (hpos : 1 ≤ count) (hin : blk + count ≤ blocks)
    (hF : ∀ i, blk ≤ i → i < blk + count → F i = true) :
    ∃ dest', blistFree dest blk count = some dest' ∧ CopiedTo F blocks (blk + count) dest' := by
  have hdis : Disjoint (freeSet dest) (Finset.Ico blk (blk + count)) := by
    rw [Finset.disjoint_left]
    intro i hi hin
    have hlt := ((h.free i).mp hi).1
    rw [Finset.mem_Ico] at hin
    omega
  rcases blistFree_spec h.ok hpos (by rw [h.blocks]; exact hin) hdis (fun hno => hno.elim) with
    ⟨dest', hrun, hok, hblocks, hset⟩
  have hunion : freeSet dest' = freeSet dest ∪ Finset.Ico blk (blk + count) := hset
  refine ⟨dest', hrun, hok, hblocks.trans h.blocks, fun i => ?_⟩
  rw [hunion, Finset.mem_union, h.free, Finset.mem_Ico]
  constructor
  · intro hi
    rcases hi with hi | hi
    · exact ⟨by omega, hi.2⟩
    · exact ⟨hi.2, hF i hi.1 hi.2⟩
  intro hi
  by_cases hlt : i < blk
  · exact Or.inl ⟨hlt, hi.2⟩
  · exact Or.inr ⟨by omega, hi.1⟩

theorem bit_test (v : BitVec 32) (i : Nat) (hi : i < 32) :
    v &&& ((1 : BitVec 32) <<< i) ≠ 0 ↔ v.getLsbD i = true := by
  rw [ne_eq, eq_zero_iff_bits, not_forall]
  constructor
  · intro h
    rcases h with ⟨j, hj⟩
    rw [Classical.not_imp, BitVec.getLsbD_and, Bool.not_eq_false, Bool.and_eq_true] at hj
    rcases hj with ⟨hj, hv, hone⟩
    simp only [BitVec.getLsbD_shiftLeft, BitVec.ofNat_eq_ofNat, BitVec.getLsbD_one,
      Bool.and_eq_true, Bool.not_eq_true', decide_eq_true_eq, decide_eq_false_iff_not] at hone
    have hij : j = i := by omega
    rwa [hij] at hv
  intro h
  refine ⟨i, ?_⟩
  rw [Classical.not_imp, BitVec.getLsbD_and, h]
  simp [hi]

/-- The bits of a leaf, from the one the walk has come to. -/
theorem copyBits_spec {F : Nat → Bool} {v : BitVec 32} {blocks blk count : Nat}
    (hin : blk + count ≤ blocks) (hle : count ≤ 32)
    (hv : ∀ i, i < count → v.getLsbD i = F (blk + i)) (fuel : Nat) :
    ∀ (i : Nat) (dest : Blist), i ≤ count → count ≤ i + fuel → CopiedTo F blocks (blk + i) dest →
      ∃ dest', copyBits v blk count fuel i dest = some dest' ∧
        CopiedTo F blocks (blk + count) dest' := by
  induction fuel with
  | zero =>
    intro i dest hi hfuel h
    have hend : i = count := by omega
    rw [hend] at h
    exact ⟨dest, rfl, h⟩
  | succ fuel ih =>
    intro i dest hi hfuel h
    unfold copyBits
    by_cases hlt : i < count
    · rw [if_pos hlt]
      by_cases hbit : v.getLsbD i = true
      · rw [if_pos ((bit_test v i (by omega)).mpr hbit)]
        rcases h.give le_rfl (by omega) (fun j hj hj' => by
          have hji : j = blk + i := by omega
          rw [hji, ← hv i hlt]
          exact hbit) with ⟨dest', hrun, h'⟩
        rw [hrun]
        exact ih (i + 1) dest' (by omega) (by omega) h'
      rw [if_neg (fun hc => hbit ((bit_test v i (by omega)).mp hc))]
      have hpass : CopiedTo F blocks (blk + i + 1) dest := h.pass (fun j hj hj' => by
        have hji : j = blk + i := by omega
        rw [hji, ← hv i hlt]
        exact Bool.eq_false_iff.mpr hbit)
      exact ih (i + 1) dest (by omega) (by omega) hpass
    rw [if_neg hlt]
    have hend : i = count := by omega
    rw [hend] at h
    exact ⟨dest, rfl, h⟩

/-- What copying the first blocks under a node does to the new list. -/
def Copies (F : Nat → Bool) (blocks blk count : Nat) (copy : Blist → Option Blist) : Prop :=
  ∀ dest, CopiedTo F blocks blk dest →
    ∃ dest', copy dest = some dest' ∧ CopiedTo F blocks (blk + count) dest'

/-- The subtrees of a node, from the one the walk has come to. Of the blocks
    asked for, those of the subtrees behind it are done. -/
theorem copyLoop_spec {F : Nat → Bool} {m : Mem} {sub : Nat → Nat → Nat → Blist → Option Blist}
    {blocks d p n blk total : Nat} (hn : n ≤ radix (d + 1)) (htotal : total ≤ n)
    (hlive : ∀ k, k * radix d < n → (m (child p d k)).bighint ≠ -1)
    (hsub : ∀ k, k * radix d < n → ∀ c, 0 < c → c ≤ childLen d n k →
      blk + k * radix d + c ≤ blk + total →
      Copies F blocks (blk + k * radix d) c (sub (child p d k) (blk + k * radix d) c))
    (fuel : Nat) : ∀ (k : Nat) (dest : Blist), fuel + k = 16 →
      CopiedTo F blocks (blk + min total (k * radix d)) dest →
      ∃ dest', copyLoop sub m d p fuel k (blk + k * radix d) (total - k * radix d) dest =
        some dest' ∧ CopiedTo F blocks (blk + total) dest' := by
  have hR := radix_pos d
  induction fuel with
  | zero =>
    intro k dest hk h
    have hall : 16 * radix d = radix (d + 1) := Nat.mul_comm _ _
    have hk16 : k = 16 := by omega
    rw [hk16, Nat.min_eq_left (by omega)] at h
    exact ⟨dest, rfl, h⟩
  | succ fuel ih =>
    intro k dest hk h
    have hnext : (k + 1) * radix d = k * radix d + radix d := Nat.succ_mul k (radix d)
    unfold copyLoop
    by_cases hzero : total - k * radix d = 0
    · -- All that was asked for is done.
      rw [if_pos hzero]
      rw [Nat.min_eq_left (by omega)] at h
      exact ⟨dest, rfl, h⟩
    rw [if_neg hzero]
    have hin : k * radix d < n := by omega
    rw [Nat.min_eq_right (by omega)] at h
    simp only
    rw [if_neg (hlive k hin)]
    by_cases hwhole : total - k * radix d ≥ radix d
    · rw [if_pos hwhole]
      rcases hsub k hin (radix d) hR (by rw [childLen]; omega) (by omega) dest h with
        ⟨dest', hrun, h'⟩
      rw [hrun]
      simp only
      rw [Nat.add_assoc, ← hnext, Nat.sub_sub, ← hnext]
      refine ih (k + 1) dest' (by omega) ?_
      rw [Nat.min_eq_right (by omega), hnext, ← Nat.add_assoc]
      exact h'
    -- The walk ends inside this subtree.
    rw [if_neg hwhole]
    rcases hsub k hin (total - k * radix d) (by omega) (by rw [childLen]; omega) (by omega)
      dest h with ⟨dest', hrun, h'⟩
    rw [hrun]
    simp only
    have hrest : (0 : Nat) = total - (k + 1) * radix d := by omega
    rw [Nat.add_assoc, ← hnext, hrest]
    refine ih (k + 1) dest' (by omega) ?_
    rw [Nat.min_eq_left (by omega)]
    have hplace : blk + k * radix d + (total - k * radix d) = blk + total := by omega
    rwa [hplace] at h'

/-- Copying the first `count` blocks under a live node that stands for `F` from
    block `blk` on. -/
theorem blstCopy_spec {F : Nat → Bool} {m : Mem} {blocks : Nat} (d : Nat) :
    ∀ (p n blk count : Nat), n ≤ radix d → Shape m d p n →
      NodeOk False m d p n (fun i => F (blk + i)) → 0 < count → count ≤ n →
      blk + count ≤ blocks → Copies F blocks blk count (blstCopy m d p blk count) := by
  induction d with
  | zero =>
    intro p n blk count hn hshape hnode hpos hle hin dest h
    have hn32 : n ≤ 32 := hn
    have hbit : ∀ i, i < count → (m p).bitmap.getLsbD i = F (blk + i) := by
      intro i hi
      rw [hnode.1 i (by omega), decide_eq_true (by omega), Bool.true_and]
    unfold blstCopy
    simp only
    by_cases hones : (m p).bitmap = BitVec.allOnes 32
    · rw [if_pos hones]
      refine h.give hpos hin (fun i hi hi' => ?_)
      have := hbit (i - blk) (by omega)
      rw [hones, BitVec.getLsbD_allOnes, decide_eq_true (by omega), Nat.add_sub_cancel' hi] at this
      exact this.symm
    rw [if_neg hones]
    by_cases hzero : (m p).bitmap = 0
    · rw [if_neg (not_not.mpr hzero)]
      refine ⟨dest, rfl, h.pass (fun i hi hi' => ?_)⟩
      have := hbit (i - blk) (by omega)
      rw [hzero, Nat.add_sub_cancel' hi] at this
      rw [← this]
      exact BitVec.getLsbD_zero
    rw [if_pos hzero]
    exact copyBits_spec hin (by omega) hbit bmapRadix 0 dest zero_le
      (by rw [bmapRadix]; omega) h
  | succ d ih =>
    intro p n blk count hn hshape hnode hpos hle hin dest h
    rcases hnode with ⟨havail, -, hsub⟩
    have hcnt := cnt_le n (fun i => F (blk + i))
    unfold blstCopy
    by_cases hzero : (m p).avail = 0
    · -- Nothing under the node is free.
      rw [if_pos hzero]
      refine ⟨dest, rfl, h.pass (fun i hi hi' => ?_)⟩
      have := cnt_eq_zero n _ (havail.symm.trans hzero) (i - blk) (by omega)
      rwa [Nat.add_sub_cancel' hi] at this
    rw [if_neg hzero]
    by_cases hfull : (m p).avail = radix (d + 1)
    · -- Everything is, so all the blocks of the node exist.
      rw [if_pos hfull]
      have hall : ∀ i, blk ≤ i → i < blk + count → F i = true := by
        intro i hi hi'
        have := cnt_eq_bound n (fun i => F (blk + i)) (by omega) (i - blk) (by omega)
        rwa [Nat.add_sub_cancel' hi] at this
      by_cases hlt : count < radix (d + 1)
      · rw [if_pos hlt]
        exact h.give hpos hin hall
      rw [if_neg hlt]
      have hcount : count = radix (d + 1) := by omega
      rw [← hcount]
      exact h.give hpos hin hall
    rw [if_neg hfull]
    have hlive : ∀ k, k * radix d < n → (m (child p d k)).bighint ≠ -1 := by
      intro k hk heq
      have := (hshape.2.1 k hk).hint
      omega
    have hcopies : ∀ k, k * radix d < n → ∀ c, 0 < c → c ≤ childLen d n k →
        blk + k * radix d + c ≤ blk + count → Copies F blocks (blk + k * radix d) c
          (blstCopy m d (child p d k) (blk + k * radix d) c) := by
      intro k hk c hc hclen hcin
      have hchild := hsub (by omega) (by omega) k hk
      simp only [← Nat.add_assoc] at hchild
      exact ih _ _ _ c (childLen_le d n k) (hshape.2.1 k hk) hchild hc hclen (by omega)
    have hloop := copyLoop_spec hn hle hlive hcopies metaRadix 0 dest rfl
      (by rwa [Nat.zero_mul, Nat.min_zero, Nat.add_zero])
    rwa [Nat.zero_mul, Nat.add_zero, Nat.sub_zero] at hloop

/-- The free set of a list of `n` blocks made from another one. -/
def resizedSet (bl : Blist) (n : Nat) (freenew : Bool) : Finset Nat :=
  (freeSet bl ∩ Finset.range (min bl.blocks n)) ∪
    if freenew = true then Finset.Ico bl.blocks n else ∅

/-- A list made for no blocks at all is a leaf without free blocks. -/
structure NoBlocks (bl : Blist) : Prop where
  blocks : bl.blocks = 0
  height : bl.height = 0
  bitmap : (bl.root 0).bitmap = 0

/-- What holds of every list a run leads to. -/
def Kept (bl : Blist) : Prop := Ok False bl ∨ NoBlocks bl

theorem blistCreate_kept (blocks : Nat) (m : Mem) : Kept (blistCreate blocks m) := by
  by_cases hpos : 1 ≤ blocks
  · exact Or.inl (blistCreate_ok False blocks hpos m).1
  have hzero : blocks = 0 := by omega
  subst hzero
  exact Or.inr ⟨rfl, rfl, rfl⟩

/-- The copy of the whole tree, as far as the new list goes. -/
theorem Kept.copy {bl : Blist} (h : Kept bl) {n : Nat} (hpos : 1 ≤ n) (m : Mem) :
    ∃ dest, blstCopy bl.root bl.height 0 0 (min bl.blocks n) (blistCreate n m) = some dest ∧
      CopiedTo (isFree bl.root bl.height 0) n (min bl.blocks n) dest := by
  rcases blistCreate_ok False n hpos m with ⟨hnew, hempty⟩
  have hstart : CopiedTo (isFree bl.root bl.height 0) n 0 (blistCreate n m) := by
    refine ⟨hnew, rfl, fun i => ?_⟩
    rw [hempty]
    simp
  rcases h with h | h
  · have hcopy := @blstCopy_spec (isFree bl.root bl.height 0) bl.root n bl.height
      0 bl.blocks 0 (min bl.blocks n) h.fits h.shape (by simpa only [Nat.zero_add] using h.node)
      (Nat.lt_min.mpr ⟨h.pos, hpos⟩) (Nat.min_le_left _ _)
      (by rw [Nat.zero_add]; exact Nat.min_le_right _ _) _ hstart
    rwa [Nat.zero_add] at hcopy
  rw [h.blocks, Nat.zero_min]
  refine ⟨_, ?_, hstart⟩
  rw [h.height, blstCopy, h.bitmap]
  rfl

/-- Resizing a list keeps what is free in it, as far as it still exists, and
    frees the blocks that are new if asked to. -/
theorem blistResize_spec {bl : Blist} (h : Kept bl) {n : Nat} (hpos : 1 ≤ n) (freenew : Bool)
    (m : Mem) : ∃ bl', blistResize bl n freenew m = some bl' ∧ Ok False bl' ∧ bl'.blocks = n ∧
      freeSet bl' = resizedSet bl n freenew := by
  rcases h.copy hpos m with ⟨dest, hrun, hdest⟩
  have hmin : (if n > bl.blocks then bl.blocks else n) = min bl.blocks n := by
    split <;> omega
  unfold blistResize
  simp only [hmin, hrun]
  by_cases hnew : freenew = true ∧ min bl.blocks n < dest.blocks
  · -- The list has become longer.
    rw [if_pos hnew]
    have hlonger : bl.blocks < n := by
      have := hdest.blocks
      omega
    rw [Nat.min_eq_left hlonger.le] at hdest ⊢
    -- The new blocks are those behind the old end.
    have hdest' : CopiedTo (fun i => isFree bl.root bl.height 0 i || decide (bl.blocks ≤ i)) n
        bl.blocks dest := by
      refine ⟨hdest.ok, hdest.blocks, fun i => ?_⟩
      rw [hdest.free, Bool.or_eq_true, decide_eq_true_eq]
      refine and_congr_right (fun hi => ?_)
      rw [or_iff_left (by omega)]
    have hpos' : 1 ≤ n - bl.blocks := by omega
    rcases hdest'.give hpos' (by omega)
      (fun i hi _ => by rw [decide_eq_true hi, Bool.or_true]) with ⟨bl', hfree, h'⟩
    refine ⟨bl', by rw [hdest.blocks]; exact hfree, h'.ok, h'.blocks, ?_⟩
    ext i
    rw [h'.free, resizedSet, if_pos hnew.1, Nat.min_eq_left hlonger.le, Finset.mem_union,
      Finset.mem_inter, mem_freeSet, Finset.mem_range, Finset.mem_Ico, Bool.or_eq_true,
      decide_eq_true_eq]
    constructor
    · intro hi
      by_cases hlt : i < bl.blocks
      · exact Or.inl ⟨⟨hlt, hi.2.resolve_right (by omega)⟩, hlt⟩
      · exact Or.inr ⟨by omega, by omega⟩
    intro hi
    rcases hi with hi | hi
    · exact ⟨by omega, Or.inl hi.1.2⟩
    · exact ⟨by omega, Or.inr hi.1⟩
  rw [if_neg hnew]
  refine ⟨dest, rfl, hdest.ok, hdest.blocks, ?_⟩
  have hnone : (if freenew = true then Finset.Ico bl.blocks n else ∅) = ∅ := by
    by_cases hfree : freenew = true
    · rw [if_pos hfree]
      refine Finset.Ico_eq_empty (fun hlt => hnew ⟨hfree, ?_⟩)
      rw [hdest.blocks]
      omega
    · exact if_neg hfree
  ext i
  rw [hdest.free, resizedSet, hnone, Finset.union_empty, Finset.mem_inter, mem_freeSet,
    Finset.mem_range, Nat.lt_min]
  exact ⟨fun hi => ⟨⟨hi.1.1, hi.2⟩, hi.1⟩, fun hi => ⟨hi.2, hi.1.2⟩⟩

/-- A step of a run in which the list is also resized. -/
inductive Change where
  | op (op : Op)
  | resize (count : Nat) (freenew : Bool) (m : Mem)

def nextChange (bl : Blist) : Change → Option Blist
  | .op op => next bl op
  | .resize count freenew m => blistResize bl count freenew m

/-- What callers may ask for: a list is never resized to nothing. -/
def ValidChange (bl : Blist) : Change → Prop
  | .op op => Valid bl op
  | .resize count _ _ => 1 ≤ count

instance ValidChange.decidable (bl : Blist) : ∀ change, Decidable (ValidChange bl change)
  | .op op => inferInstanceAs (Decidable (Valid bl op))
  | .resize count _ _ => inferInstanceAs (Decidable (1 ≤ count))

/-- On a list without blocks only allocations are valid, and they fail. -/
theorem NoBlocks.next {bl : Blist} (h : NoBlocks bl) {op : Op} (hvalid : Valid bl op) :
    ∃ bl', Swap.next bl op = some bl' ∧ NoBlocks bl' := by
  have hblocks := h.blocks
  cases op with
  | alloc count =>
    have hleaf : blstLeafAlloc bl.root 0 0 count =
        (none, update bl.root 0 { bl.root 0 with bighint := 0 }) := by
      unfold blstLeafAlloc
      simp only [h.bitmap, if_true]
    refine ⟨{ bl with root := update bl.root 0 { bl.root 0 with bighint := 0 } }, ?_,
      h.blocks, h.height, ?_⟩
    · rw [Swap.next, exec, blistAlloc, h.height, blstAlloc, hleaf]
      rfl
    · simp only [update_self]
      exact h.bitmap
  | free blkno count =>
    have hpos := hvalid.1
    have hin := hvalid.2.1
    omega
  | fill blkno count =>
    have hin := hvalid.2.2
    omega

theorem Kept.change {bl : Blist} (h : Kept bl) (change : Change) (hvalid : ValidChange bl change) :
    ∃ bl', nextChange bl change = some bl' ∧ Kept bl' := by
  cases change with
  | op op =>
    rcases h with h | h
    · rcases next_progress ⟨h, rfl⟩ hvalid (fun hno => hno.elim) with ⟨bl', hrun, hok, -⟩
      exact ⟨bl', hrun, Or.inl hok⟩
    · rcases h.next hvalid with ⟨bl', hrun, hnone⟩
      exact ⟨bl', hrun, Or.inr hnone⟩
  | resize count freenew m =>
    rcases blistResize_spec h hvalid freenew m with ⟨bl', hrun, hok, -⟩
    exact ⟨bl', hrun, Or.inl hok⟩

/-- The list any run of valid operations and resizes leads to may be resized to
    any number of blocks. No panic is reached, what is free in the new list is
    what was free in the old one together with the new blocks that were to be
    freed, and its counts are right. -/
theorem blistResize_keeps_free (blocks : Nat) (m : Mem) (changes : List Change)
    (hvalid : EveryStep nextChange ValidChange (blistCreate blocks m) changes) :
    ∃ bl, runOps nextChange (blistCreate blocks m) changes = some bl ∧
      ∀ n, 1 ≤ n → ∀ freenew m', ∃ bl', blistResize bl n freenew m' = some bl' ∧ bl'.blocks = n ∧
        freeSet bl' = (freeSet bl ∩ Finset.range (min bl.blocks n)) ∪
          (if freenew = true then Finset.Ico bl.blocks n else ∅) ∧
        bl'.free = (freeSet bl').card ∧ Accounted bl' := by
  rcases runOps_progress_of nextChange ValidChange Kept
    (fun bl change h hv => h.change change hv) changes _ (blistCreate_kept blocks m) hvalid with
    ⟨bl, hrun, hkept⟩
  refine ⟨bl, hrun, fun n hpos freenew m' => ?_⟩
  rcases blistResize_spec hkept hpos freenew m' with ⟨bl', hresize, hok, hblocks, hset⟩
  exact ⟨bl', hresize, hblocks, hset, hok.accounted.free, hok.accounted⟩

theorem blistResize_keeps_free_forty :
    EveryStep nextChange ValidChange (blistCreate 40 (fun _ => ⟨7, 7, 7⟩))
      [.op (.free 0 40), .op (.alloc 3), .resize 520 true (fun _ => ⟨9, 9, 9⟩), .op (.alloc 32)] ∧
      ∃ bl bl', runOps nextChange (blistCreate 40 (fun _ => ⟨7, 7, 7⟩))
          [.op (.free 0 40), .op (.alloc 3), .resize 520 true (fun _ => ⟨9, 9, 9⟩),
            .op (.alloc 32)] = some bl ∧
        blistResize bl 45 false (fun _ => ⟨5, 5, 5⟩) = some bl' ∧
        bl'.free = (freeSet bl').card := by
  have hvalid : EveryStep nextChange ValidChange (blistCreate 40 (fun _ => ⟨7, 7, 7⟩))
      [.op (.free 0 40), .op (.alloc 3), .resize 520 true (fun _ => ⟨9, 9, 9⟩),
        .op (.alloc 32)] := by decide +kernel
  rcases blistResize_keeps_free 40 (fun _ => ⟨7, 7, 7⟩) _ hvalid with ⟨bl, hrun, hresize⟩
  rcases hresize 45 (by decide) false (fun _ => ⟨5, 5, 5⟩) with ⟨bl', hrun', -, -, hfree, -⟩
  exact ⟨hvalid, bl, bl', hrun, hrun', hfree⟩

end FreeBSDKern.Swap
