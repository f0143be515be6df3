import Mathlib

/-!
# The Block List

The bitmap allocator of the swap code. Blocks are kept in a radix tree laid out
in one array: a meta node is followed by its sixteen subtrees, one behind the
other, and a leaf is a bitmap of thirty-two blocks. The array is only as long
as the number of blocks needs, and where a meta node has fewer subtrees the
place of the next one is marked by a hint of `-1`.

A meta node whose count is zero, or equal to its radix, stands for everything
below it; the nodes there are stale and are written afresh when the tree is
entered. Every node has a hint, meant to be no lower than the longest run of
free blocks in one leaf below it, by which allocation skips subtrees.

The radix and the skip of a node always go together and only depend on its
height, so the functions here recurse on the height. The union of the source
holds a count in meta nodes and a bitmap in leaves, and a place of the array
never changes from one to the other; it is a record with both. A block number
that an allocation does not find is `none`, and a panic is `none` outside of
that.

## Main definitions

* `Blmeta`, `Mem`: A node, and the array.
* `radix`, `skip`, `child`: The layout.
* `blstAlloc`: Allocation in a subtree.
* `blstFree`: Freeing a range in a subtree.
* `blstFill`: Taking a range whatever its state.
* `Blist`: The whole list, and its operations.
* `isFree`: Reading the tree through its collapsed nodes.
-/

namespace FreeBSDKern.Swap

open Function

structure Blmeta where
  avail : Nat
  bitmap : BitVec 32
  bighint : Int

abbrev Mem := Nat → Blmeta

def bmapRadix : Nat := 32

def metaRadix : Nat := 16

/-- The blocks under a node of a height. -/
def radix : Nat → Nat
  | 0 => bmapRadix
  | d + 1 => radix d * metaRadix

/-- The nodes below a node of a height. -/
def skip : Nat → Nat
  | 0 => 0
  | d + 1 => (skip d + 1) * metaRadix

/-- The place of the `k`-th subtree of a node of height `d + 1`. -/
def child (scan d k : Nat) : Nat := scan + (1 + k * (skip (d + 1) / metaRadix))

/-- The search for one free block: halve the bitmap until a bit is left. -/
def lowBitLoop : Nat → BitVec 32 → BitVec 32 → Nat → Nat → Nat
  | 0, _, _, _, r => r
  | fuel + 1, orig, mask, j, r =>
    if j = 0 then r
    else if orig &&& mask = 0 then
      lowBitLoop fuel (orig >>> j) (mask >>> (j / 2)) (j / 2) (r + j)
    else lowBitLoop fuel orig (mask >>> (j / 2)) (j / 2) r

/-- The search for a run of blocks: shift the mask along the bitmap. -/
def runLoop : Nat → BitVec 32 → BitVec 32 → Nat → Option (Nat × BitVec 32)
  | 0, _, _, _ => none
  | fuel + 1, orig, mask, j =>
    if orig &&& mask = mask then some (j, mask) else runLoop fuel orig (mask <<< 1) (j + 1)

/-- `blst_leaf_alloc`. -/
def blstLeafAlloc (m : Mem) (scan blk count : Nat) : Option Nat × Mem :=
  let orig := (m scan).bitmap
  if orig = 0 then (none, update m scan { m scan with bighint := 0 })
  else if count = 1 then
    let r := lowBitLoop 6 orig (BitVec.allOnes 32 >>> (bmapRadix / 2)) (bmapRadix / 2) 0
    (some (blk + r), update m scan { m scan with bitmap := orig &&& ~~~((1 : BitVec 32) <<< r) })
  else
    let n := bmapRadix - count
    match (if count ≤ bmapRadix then runLoop (n + 1) orig (BitVec.allOnes 32 >>> n) 0 else none) with
    | some (j, mask) =>
      (some (blk + j), update m scan { m scan with bitmap := orig &&& ~~~mask })
    | none => (none, update m scan { m scan with bighint := (count : Int) - 1 })

/-- Write the subtrees of a node afresh, up to the terminator. -/
def initSub (node : Blmeta → Blmeta) (d scan : Nat) : Nat → Nat → Mem → Mem
  | 0, _, m => m
  | fuel + 1, k, m =>
    let i := child scan d k
    if (m i).bighint = -1 then m
    else initSub node d scan fuel (k + 1) (update m i (node (m i)))

/-- A node of height `d` with everything free. -/
def allFree (d : Nat) (node : Blmeta) : Blmeta :=
  if d = 0 then { node with bitmap := BitVec.allOnes 32, bighint := bmapRadix }
  else { node with bighint := radix d, avail := radix d }

/-- A node of height `d` with everything allocated. -/
def allAllocated (d : Nat) (node : Blmeta) : Blmeta :=
  if d = 0 then { node with bighint := 0, bitmap := 0 } else { node with bighint := 0, avail := 0 }

/-- Nothing was found under the node. -/
def allocFailed (m : Mem) (scan count : Nat) : Mem :=
  if (m scan).bighint ≥ count then update m scan { m scan with bighint := (count : Int) - 1 }
  else m

/-- The loop of `blst_meta_alloc` over the subtrees. -/
def allocLoop (sub : Mem → Nat → Nat → Nat → Option (Option Nat × Mem)) (d scan count : Nat) :
    Nat → Nat → Nat → Mem → Option (Option Nat × Mem)
  | 0, _, _, m => some (none, allocFailed m scan count)
  | fuel + 1, k, blk, m =>
    let i := child scan d k
    if (count : Int) ≤ (m i).bighint then
      match sub m i blk count with
      | none => none
      | some (some r, m) =>
        let avail := (m scan).avail - count
        let bighint := if (m scan).bighint > avail then (avail : Int) else (m scan).bighint
        some (some r, update m scan { m scan with avail := avail, bighint := bighint })
      | some (none, m) => allocLoop sub d scan count fuel (k + 1) (blk + radix d) m
    else if (m i).bighint = -1 then some (none, allocFailed m scan count)
    else if count > radix d then none
    else allocLoop sub d scan count fuel (k + 1) (blk + radix d) m

/-- `blst_meta_alloc`, or `blst_leaf_alloc` at height zero. -/
def blstAlloc : Nat → Mem → Nat → Nat → Nat → Option (Option Nat × Mem)
  | 0, m, scan, blk, count => some (blstLeafAlloc m scan blk count)
  | d + 1, m, scan, blk, count =>
    if (m scan).avail = 0 then
      some (none, update m scan { m scan with bighint := count })
    else
      let m := if (m scan).avail = radix (d + 1) then initSub (allFree d) d scan metaRadix 0 m else m
      allocLoop (blstAlloc d) d scan count metaRadix 0 blk m

/-- The bits of a range in its leaf. -/
def rangeMask (blk count : Nat) : BitVec 32 :=
  let n := blk % bmapRadix
  (BitVec.allOnes 32 <<< n) &&& (BitVec.allOnes 32 >>> (bmapRadix - count - n))

/-- `blst_leaf_free`. -/
def blstLeafFree (m : Mem) (scan blk count : Nat) : Option Mem :=
  if (m scan).bitmap &&& rangeMask blk count = 0 then
    some (update m scan
      { m scan with bitmap := (m scan).bitmap ||| rangeMask blk count, bighint := bmapRadix })
  else none

/-- The loop of `blst_meta_free` over the subtrees the range touches. -/
def freeLoop (sub : Mem → Nat → Nat → Nat → Nat → Option Mem) (d scan : Nat) :
    Nat → Nat → Nat → Nat → Nat → Mem → Option Mem
  | 0, _, _, _, _, m => some m
  | fuel + 1, k, freeBlk, count, blk, m =>
    if blk < freeBlk + count then
      let i := child scan d k
      let v := if blk + radix d - freeBlk > count then count else blk + radix d - freeBlk
      if (m scan).bighint = -1 then none
      else match sub m i freeBlk v blk with
        | none => none
        | some m =>
          let m := if (m scan).bighint < (m i).bighint then
              update m scan { m scan with bighint := (m i).bighint }
            else m
          freeLoop sub d scan fuel (k + 1) (freeBlk + v) (count - v) (blk + radix d) m
    else some m

/-- `blst_meta_free`, or `blst_leaf_free` at height zero. -/
def blstFree : Nat → Mem → Nat → Nat → Nat → Nat → Option Mem
  | 0, m, scan, freeBlk, count, _ => blstLeafFree m scan freeBlk count
  | d + 1, m, scan, freeBlk, count, blk =>
    let m :=
      if (m scan).avail = 0 then
        let m := update m scan { m scan with avail := count, bighint := count }
        if count ≠ radix (d + 1) then initSub (allAllocated d) d scan metaRadix 0 m else m
      else update m scan { m scan with avail := (m scan).avail + count }
    if (m scan).avail = radix (d + 1) then some m
    else if (m scan).avail > radix (d + 1) then none
    else
      let k := (freeBlk - blk) / radix d
      freeLoop (blstFree d) d scan (metaRadix - k) k freeBlk count (blk + k * radix d) m

/-- Count the bits of a bitmap, clearing the lowest until none is left. -/
def nblksLoop : Nat → BitVec 32 → Nat → Nat
  | 0, _, nblks => nblks
  | fuel + 1, bitmap, nblks =>
    if bitmap = 0 then nblks else nblksLoop fuel (bitmap &&& (bitmap - 1)) (nblks + 1)

/-- `blst_leaf_fill`. -/
def blstLeafFill (m : Mem) (scan blk count : Nat) : Nat × Mem :=
  (nblksLoop bmapRadix ((m scan).bitmap &&& rangeMask blk count) 0,
    update m scan { m scan with bitmap := (m scan).bitmap &&& ~~~rangeMask blk count })

/-- The loop of `blst_meta_fill` over the subtrees the range touches. -/
def fillLoop (sub : Mem → Nat → Nat → Nat → Nat → Option (Nat × Mem)) (d scan : Nat) :
    Nat → Nat → Nat → Nat → Nat → Nat → Mem → Option (Nat × Mem)
  | 0, _, _, _, _, nblks, m => some (nblks, m)
  | fuel + 1, k, allocBlk, count, blk, nblks, m =>
    if blk < allocBlk + count then
      let i := child scan d k
      let v := if blk + radix d - allocBlk > count then count else blk + radix d - allocBlk
      if (m scan).bighint = -1 then none
      else match sub m i allocBlk v blk with
        | none => none
        | some (filled, m) =>
          fillLoop sub d scan fuel (k + 1) (allocBlk + v) (count - v) (blk + radix d)
            (nblks + filled) m
    else some (nblks, m)

/-- `blst_meta_fill`, or `blst_leaf_fill` at height zero. -/
def blstFill : Nat → Mem → Nat → Nat → Nat → Nat → Option (Nat × Mem)
  | 0, m, scan, allocBlk, count, _ => some (blstLeafFill m scan allocBlk count)
  | d + 1, m, scan, allocBlk, count, blk =>
    if count = radix (d + 1) ∨ (m scan).avail = 0 then
      some ((m scan).avail, update m scan { m scan with avail := 0, bighint := count })
    else
      let m := if (m scan).avail = radix (d + 1) then initSub (allFree d) d scan metaRadix 0 m else m
      if count > radix d then none
      else
        let k := (allocBlk - blk) / radix d
        match fillLoop (blstFill d) d scan (metaRadix - k) k allocBlk count (blk + k * radix d) 0 m
          with
        | none => none
        | some (nblks, m) =>
          some (nblks, update m scan { m scan with avail := (m scan).avail - nblks })

/-- The loop of `blst_radix_init` over the subtrees. The second result is the
    last place used. -/
def initLoop (sub : Mem → Nat → Nat → Mem × Nat) (d scan : Nat) :
    Nat → Nat → Nat → Nat → Mem → Mem × Nat
  | 0, k, _, memindex, m => (m, max memindex (1 + k * (skip (d + 1) / metaRadix)))
  | fuel + 1, k, count, memindex, m =>
    let i := 1 + k * (skip (d + 1) / metaRadix)
    if count ≥ radix d then
      let r := sub m (scan + i) (radix d)
      initLoop sub d scan fuel (k + 1) (count - radix d) (i + r.2) r.1
    else if count > 0 then
      let r := sub m (scan + i) count
      initLoop sub d scan fuel (k + 1) 0 (i + r.2) r.1
    else
      (update m (scan + i) { m (scan + i) with bighint := -1 }, max memindex i)

/-- `blst_radix_init`. -/
def blstRadixInit : Nat → Mem → Nat → Nat → Mem × Nat
  | 0, m, scan, _ => (update m scan { m scan with bighint := 0, bitmap := 0 }, 0)
  | d + 1, m, scan, count =>
    initLoop (blstRadixInit d) d scan metaRadix 0 count 0
      (update m scan { m scan with bighint := 0, avail := 0 })

structure Blist where
  blocks : Nat
  /-- The height of the root, which gives `bl_radix` and `bl_skip`. -/
  height : Nat
  free : Nat
  root : Mem
  rootblks : Nat

/-- The loop of `blist_create` that finds the radix. -/
def createLoop (blocks : Nat) : Nat → Nat → Nat
  | 0, d => d
  | fuel + 1, d => if radix d < blocks then createLoop blocks fuel (d + 1) else d

/-- `blist_create`. The memory for the tree comes as it is. -/
def blistCreate (blocks : Nat) (m : Mem) : Blist :=
  let height := createLoop blocks blocks 0
  let r := blstRadixInit height m 0 blocks
  { blocks := blocks, height := height, free := 0, root := r.1, rootblks := 1 + r.2 }

/-- `blist_alloc`. -/
def blistAlloc (bl : Blist) (count : Nat) : Option (Option Nat × Blist) :=
  match blstAlloc bl.height bl.root 0 0 count with
  | none => none
  | some (none, m) => some (none, { bl with root := m })
  | some (some blk, m) => some (some blk, { bl with root := m, free := bl.free - count })

/-- `blist_free`. -/
def blistFree (bl : Blist) (blkno count : Nat) : Option Blist :=
  (blstFree bl.height bl.root 0 blkno count 0).map
    (fun m => { bl with root := m, free := bl.free + count })

/-- `blist_fill`. -/
def blistFill (bl : Blist) (blkno count : Nat) : Option (Nat × Blist) :=
  (blstFill bl.height bl.root 0 blkno count 0).map
    (fun r => (r.1, { bl with root := r.2, free := bl.free - r.1 }))

/-- Reading the tree through its collapsed nodes: is a block of the subtree
    free. -/
def isFree (m : Mem) : Nat → Nat → Nat → Bool
  | 0, scan, off => (m scan).bitmap.getLsbD off
  | d + 1, scan, off =>
    if (m scan).avail = 0 then false
    else if (m scan).avail = radix (d + 1) then true
    else isFree m d (child scan d (off / radix d)) (off % radix d)

/-- The free blocks of the list. -/
def freeSet (bl : Blist) : Finset Nat :=
  (Finset.range bl.blocks).filter (fun b => isFree bl.root bl.height 0 b = true)

end FreeBSDKern.Swap
