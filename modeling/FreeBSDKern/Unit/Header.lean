import Mathlib

/-!
# Unit Number Headers

The unit number allocator, which hands out small integers lowest first. A
number space is kept as three parts: `first` numbers allocated from the bottom,
a list of elements in the middle, and `last` numbers free at the top. An
element is a run of free numbers, a run of allocated ones, or a bitmap, told
apart in the source by where its pointer points: nowhere, back at the header,
or at a bitmap.

After every change the element that was touched is collapsed with its
neighbours, the ends of the list are folded into `first` and `last`, and
sequences of short elements are gathered into a bitmap for as long as that
saves memory. The source takes no memory for any of this; only splitting an
element does, and for that every caller brings two spare elements. Where they
run out the model stops with `none`.

A position in the list is a pair of lists, what comes before the element and
what comes after. A bitmap is a function from bit numbers, of which only those
below the element's length are ever read. A bitmap made out of a run reuses
the run's own memory, so its bits start out as whatever was there; they are
taken to be clear, and every bit below the length is written first.

## Main definitions

* `Unrhdr`: A number space.
* `optimizeUnr`: Gathering the most profitable sequence into a bitmap.
* `collapseUnr`: Restoring the list after one element changed.
* `allocUnrl`: Allocating the lowest free number.
* `allocUnrSpecificl`: Allocating a given number.
* `freeUnrl`: Freeing a number.
-/

namespace FreeBSDKern.Unit

open Function

/-- `NBITS`: the bits of a bitmap, which fills one list element but for its
    busy byte. -/
def nbits : Nat := 248

structure Unrb where
  busy : Nat
  map : Nat → Bool

/-- Where an element's pointer points: nowhere for a run of free numbers, at
    the header for a run of allocated ones, otherwise at a bitmap. -/
inductive Ptr where
  | null
  | uh
  | bitmap (ub : Unrb)

structure Unr where
  len : Nat
  ptr : Ptr

structure Unrhdr where
  head : List Unr
  low : Nat
  high : Nat
  busy : Nat
  alloc : Nat
  first : Nat
  last : Nat

/-- `init_unrhdr`. -/
def initUnrhdr (low high : Nat) : Unrhdr :=
  { head := [], low := low, high := high, busy := 0, alloc := 0, first := 0,
    last := 1 + (high - low) }

def bitNset (map : Nat → Bool) (start stop : Nat) : Nat → Bool :=
  fun i => if start ≤ i ∧ i ≤ stop then true else map i

def bitNclear (map : Nat → Bool) (start stop : Nat) : Nat → Bool :=
  fun i => if start ≤ i ∧ i ≤ stop then false else map i

/-- `bit_ffc`: the first clear bit below `len`. -/
def bitFfc (map : Nat → Bool) (len : Nat) : Option Nat :=
  (List.range len).find? (fun i => !map i)

def isBitmap (up : Unr) : Bool :=
  match up.ptr with
  | .bitmap _ => true
  | _ => false

/-- The pointer comparison of `collapse_unr`. Two bitmaps are never the same
    one. -/
def samePtr (a b : Unr) : Bool :=
  match a.ptr, b.ptr with
  | .null, .null => true
  | .uh, .uh => true
  | _, _ => false

/-- What an element weighs in memory. -/
def weight (up : Unr) : Nat := if isBitmap up then 2 else 1

/-- The inner loop of the search: what can be gathered behind `l` numbers. -/
def gatherWeight : Nat → List Unr → Nat
  | _, [] => 0
  | l, up :: rest =>
    if up.len + l > nbits then 0 else weight up + gatherWeight (l + up.len) rest

/-- The outer loop: the heaviest sequence seen so far and where it starts. -/
def bestFrom : List Unr → Nat → Nat → Nat → Nat × Nat
  | [], _, ba, us => (ba, us)
  | uf :: rest, k, ba, us =>
    if uf.len ≥ nbits then bestFrom rest (k + 1) ba us
    else
      let a := weight uf + gatherWeight uf.len rest
      if a > ba then bestFrom rest (k + 1) a k else bestFrom rest (k + 1) ba us

/-- Copy `len` bits of another bitmap behind the first `a`, counting the set
    ones. -/
def copyBits (src : Nat → Bool) (len a : Nat) (ub : Unrb) : Unrb :=
  (List.range len).foldl (fun ub l =>
    if src l then ⟨ub.busy + 1, update ub.map (a + l) true⟩
    else ⟨ub.busy, update ub.map (a + l) false⟩) ub

/-- Write `uf` behind the first `len` bits. -/
def absorb (ub : Unrb) (len : Nat) (uf : Unr) : Unrb :=
  match uf.ptr with
  | .null => ⟨ub.busy, bitNclear ub.map len (len + uf.len - 1)⟩
  | .uh => ⟨ub.busy + uf.len, bitNset ub.map len (len + uf.len - 1)⟩
  | .bitmap ubf => copyBits ubf.map uf.len len ub

/-- The last loop of `optimize_unr`: take the following elements into the
    bitmap while they fit, giving their memory back. -/
def absorbRest (ub : Unrb) (len : Nat) : Nat → List Unr → Nat × List Unr
  | alloc, [] => (alloc, [⟨len, .bitmap ub⟩])
  | alloc, uf :: rest =>
    if uf.len + len > nbits then (alloc, ⟨len, .bitmap ub⟩ :: uf :: rest)
    else absorbRest (absorb ub len uf) (len + uf.len) (alloc - weight uf) rest

/-- A run's own memory turned into a bitmap of its numbers. -/
def runToBitmap (us : Unr) : Unrb :=
  match us.ptr with
  | .uh => ⟨us.len, bitNset (fun _ => false) 0 us.len⟩
  | _ => ⟨0, bitNclear (fun _ => false) 0 us.len⟩

/-- Gather a sequence starting at `us`. A run has to become a bitmap first,
    and takes its successor along. -/
def gather (alloc : Nat) (us : Unr) (rest : List Unr) : Nat × List Unr :=
  match us.ptr with
  | .bitmap ub => absorbRest ub us.len alloc rest
  | _ => match rest with
    | [] => (alloc, [us])
    | uf :: rest =>
      absorbRest (absorb (runToBitmap us) us.len uf) (us.len + uf.len)
        (if isBitmap uf then alloc - 1 else alloc) rest

/-- `optimize_unr`: the list after one sequence was gathered, or `none` where
    none is worth it. -/
def optimizeUnr (alloc : Nat) (head : List Unr) : Option (Nat × List Unr) :=
  let best := bestFrom head 0 0 0
  if best.1 < 3 then none
  else match head.drop best.2 with
    | [] => none
    | us :: rest =>
      let r := gather alloc us rest
      some (r.1, head.take best.2 ++ r.2)

/-- Call `optimize_unr` until it finds nothing. Every gathering makes the list
    shorter, so its length is fuel enough. -/
def optimizeLoop : Nat → Nat → List Unr → Nat × List Unr
  | 0, alloc, head => (alloc, head)
  | fuel + 1, alloc, head => match optimizeUnr alloc head with
    | none => (alloc, head)
    | some (alloc', head') => optimizeLoop fuel alloc' head'

/-- A bitmap that is all set or all clear becomes a run. -/
def plainRun (alloc : Nat) (up : Unr) : Nat × Unr :=
  match up.ptr with
  | .bitmap ub =>
    if ub.busy = up.len then (alloc - 1, { up with ptr := .uh })
    else if ub.busy = 0 then (alloc - 1, { up with ptr := .null })
    else (alloc, up)
  | _ => (alloc, up)

/-- Merge an element with the one before it, where both are runs of one
    kind. -/
def mergePrev (alloc : Nat) (pre : List Unr) (up : Unr) : Nat × List Unr × Unr :=
  match pre.getLast? with
  | some upp =>
    if samePtr up upp then (alloc - 1, pre.dropLast, { up with len := up.len + upp.len })
    else (alloc, pre, up)
  | none => (alloc, pre, up)

/-- Merge an element with the one after it. -/
def mergeNext (alloc : Nat) (up : Unr) (post : List Unr) : Nat × List Unr :=
  match post with
  | upp :: post' =>
    if samePtr up upp then (alloc - 1, { up with len := up.len + upp.len } :: post')
    else (alloc, up :: post)
  | [] => (alloc, [up])

def mergeNeighbors (alloc : Nat) (pre : List Unr) (up : Unr) (post : List Unr) : Nat × List Unr :=
  let (alloc, pre, up) := mergePrev alloc pre up
  let (alloc, l) := mergeNext alloc up post
  (alloc, pre ++ l)

/-- Drop the element if nothing is left in it; its neighbour is then the one
    to merge. -/
def mergeHotSpot (alloc : Nat) (pre : List Unr) (up : Unr) (post : List Unr) : Nat × List Unr :=
  if up.len = 0 then
    match pre.getLast? with
    | some upp => mergeNeighbors (alloc - 1) pre.dropLast upp post
    | none => match post with
      | upp :: post' => mergeNeighbors (alloc - 1) [] upp post'
      | [] => (alloc - 1, [])
  else mergeNeighbors alloc pre up post

/-- An allocated run at the front belongs to `first`. -/
def mergeFirst (uh : Unrhdr) : Unrhdr :=
  match uh.head with
  | upp :: rest => match upp.ptr with
    | .uh => { uh with first := uh.first + upp.len, head := rest, alloc := uh.alloc - 1 }
    | _ => uh
  | [] => uh

/-- A free run at the back belongs to `last`. -/
def mergeLast (uh : Unrhdr) : Unrhdr :=
  match uh.head.getLast? with
  | some upp => match upp.ptr with
    | .null =>
      { uh with last := uh.last + upp.len, head := uh.head.dropLast, alloc := uh.alloc - 1 }
    | _ => uh
  | none => uh

/-- `collapse_unr` on the element between `pre` and `post`. -/
def collapseUnr (uh : Unrhdr) (pre : List Unr) (up : Unr) (post : List Unr) : Unrhdr :=
  let (alloc, up) := plainRun uh.alloc up
  let (alloc, head) := mergeHotSpot alloc pre up post
  let uh := mergeLast (mergeFirst { uh with head := head, alloc := alloc })
  let (alloc, head) := optimizeLoop uh.head.length uh.alloc uh.head
  { uh with head := head, alloc := alloc }

/-- The element that contains the `i`-th number of the list, what comes before
    and after it, and the number's place in it; or how far past the end `i`
    lies. -/
def findElem : List Unr → Nat → Nat ⊕ (List Unr × Unr × List Unr × Nat)
  | [], i => .inl i
  | up :: rest, i =>
    if up.len > i then .inr ([], up, rest, i)
    else match findElem rest (i - up.len) with
      | .inl j => .inl j
      | .inr (pre, v, post, j) => .inr (up :: pre, v, post, j)

/-- `alloc_unrl`: the lowest free number, or `-1`. -/
def allocUnrl (uh : Unrhdr) : Option (Int × Unrhdr) :=
  let x := uh.low + uh.first
  match uh.head with
  | [] =>
    if uh.last > 0 then
      some (x, { uh with first := uh.first + 1, last := uh.last - 1, busy := uh.busy + 1 })
    else some (-1, uh)
  | up :: rest => match up.ptr with
    | .uh => none
    | .null =>
      some (x, collapseUnr { uh with first := uh.first + 1, busy := uh.busy + 1 } []
        { up with len := up.len - 1 } rest)
    | .bitmap ub => match bitFfc ub.map up.len with
      | none => none
      | some y =>
        some ((x + y : Nat), collapseUnr { uh with busy := uh.busy + 1 } []
          { up with ptr := .bitmap ⟨ub.busy + 1, update ub.map y true⟩ } rest)

/-- The tail of `alloc_unr_specificl`, common to the branches that changed the
    list. -/
def specificDone (uh : Unrhdr) (item : Nat) (pre : List Unr) (up : Unr) (post : List Unr) :
    Int × Unrhdr :=
  let last := uh.high - uh.low - (item - uh.low)
  let uh := if uh.last > last then { uh with last := last } else uh
  (item, collapseUnr { uh with busy := uh.busy + 1 } pre up post)

/-- Take `n` spare elements, if the caller still has as many. -/
def newUnr (uh : Unrhdr) (spare n : Nat) : Option Unrhdr :=
  if n ≤ spare then some { uh with alloc := uh.alloc + n } else none

/-- `alloc_unr_specificl`, with `spare` preallocated elements: the number, or
    `-1`. -/
def allocUnrSpecificl (uh : Unrhdr) (item spare : Nat) : Option (Int × Unrhdr) :=
  if item < uh.low + uh.first ∨ item > uh.high then some (-1, uh)
  else if uh.head.isEmpty ∧ item - uh.low = uh.first then
    some (item, { uh with first := uh.first + 1, last := uh.last - 1, busy := uh.busy + 1 })
  else
    let i := item - uh.low - uh.first
    if uh.head.isEmpty then
      (newUnr uh spare 2).map (fun uh =>
        (item, { uh with head := [⟨i, .null⟩, ⟨1, .uh⟩], last := uh.high - uh.low - i,
                         busy := uh.busy + 1 }))
    else match findElem uh.head i with
      | .inl j =>
        if j > 0 then
          (newUnr uh spare 2).map (fun uh' =>
            specificDone uh' item (uh.head ++ [⟨j, .null⟩]) ⟨1, .uh⟩ [])
        else
          (newUnr uh spare 1).map (fun uh' => specificDone uh' item uh.head ⟨1, .uh⟩ [])
      | .inr (pre, up, post, j) => match up.ptr with
        | .bitmap ub =>
          if ub.map j then some (-1, uh)
          else some (specificDone uh item pre
            { up with ptr := .bitmap ⟨ub.busy + 1, update ub.map j true⟩ } post)
        | .uh => some (-1, uh)
        | .null =>
          let tl := up.len - (1 + j)
          let tail := if tl > 0 then [⟨tl, .null⟩] else []
          let front := if j > 0 then [⟨j, .null⟩] else []
          (newUnr uh spare (tail.length + front.length)).map (fun uh' =>
            specificDone uh' item (pre ++ front) ⟨1, .uh⟩ (tail ++ post))

/-- `free_unrl` once the number lies in the list: `item` is its place there,
    and `spare` what is left of the preallocated elements. -/
def freeInList (uh : Unrhdr) (item spare : Nat) : Option Unrhdr :=
  match findElem uh.head item with
  | .inl _ => none
  | .inr (pre, up, post, j) => match up.ptr with
    | .bitmap ub =>
      if ub.map j then
        some (collapseUnr { uh with busy := uh.busy - 1 } pre
          { up with ptr := .bitmap ⟨ub.busy - 1, update ub.map j false⟩ } post)
      else none
    | .null => none
    | .uh =>
      let uh := { uh with busy := uh.busy - 1 }
      let shrunk : Unr := { up with len := up.len - 1 }
      if up.len = 1 then some (collapseUnr uh pre { up with ptr := .null } post)
      else match pre.getLast? with
        | some ⟨n, .null⟩ =>
          if j = 0 then some (collapseUnr uh (pre.dropLast ++ [⟨n + 1, .null⟩]) shrunk post)
          else splitOrShift uh up pre post j spare
        | _ => splitOrShift uh up pre post j spare
where
  /-- The remaining branches: shift the number to a following free run, or cut
      the run around it. -/
  splitOrShift (uh : Unrhdr) (up : Unr) (pre post : List Unr) (j spare : Nat) : Option Unrhdr :=
    match post with
    | ⟨n, .null⟩ :: post' =>
      if j = up.len - 1 then
        some (collapseUnr uh pre { up with len := up.len - 1 } (⟨n + 1, .null⟩ :: post'))
      else split uh up pre post j spare
    | _ => split uh up pre post j spare
  split (uh : Unrhdr) (up : Unr) (pre post : List Unr) (j spare : Nat) : Option Unrhdr :=
    let pl := up.len - (1 + j)
    let tail := if pl > 0 then [⟨pl, .uh⟩] else []
    let front := if j > 0 then [⟨j, .uh⟩] else []
    (newUnr uh spare (tail.length + front.length)).map (fun uh' =>
      collapseUnr uh' (pre ++ front) ⟨1, .null⟩ (tail ++ post))

/-- `free_unrl`, with `spare` preallocated elements. -/
def freeUnrl (uh : Unrhdr) (item spare : Nat) : Option Unrhdr :=
  let item := item - uh.low
  if item + 1 = uh.first ∧ uh.head.isEmpty then
    some { uh with last := uh.last + 1, first := uh.first - 1, busy := uh.busy - 1 }
  else if item < uh.first then
    -- A run from the freed number to the end of `first`; the code below
    -- subdivides it.
    (newUnr uh spare 1).bind (fun uh' =>
      freeInList { uh' with head := ⟨uh.first - item, .uh⟩ :: uh.head, first := item } 0
        (spare - 1))
  else freeInList uh (item - uh.first) spare

end FreeBSDKern.Unit
