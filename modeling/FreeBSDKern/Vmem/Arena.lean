import FreeBSDKern.Lib.Run
import FreeBSDKern.Lib.Tailq

/-!
# Vmem Arenas

The general resource allocator. An arena is a queue of boundary tags: each span
is a tag of its own, followed by the tags of its free and busy pieces. Free tags
are also on one of ninety free lists by their size, busy tags on a hash chain by
their address.

Addresses and sizes are words of sixty-four bits, kept as natural numbers, and
arithmetic on them is taken modulo `2 ^ 64` where the source computes in words.
A tag is named by a number; a new tag takes a number that was never used before.
Whether there are enough tags is asked before an operation begins, and is an
answer given to the operation here. Assertions are compiled out, as they are
in a kernel that runs. An operation that would follow a null pointer is `none`.

Everything happens with the lock of the arena held. An allocation gives it up
around the import function and while it waits, so it is not one step but a
sequence of them: a pass over the free lists, and the import of a span after a
pass that failed. The quantum caches and the reclaim function only reach the
arena through the operations modelled here.

## Main definitions

* `Bt`, `Arena`: A tag, and an arena.
* `btInsfree`, `btRemfree`, `btInsbusy`, `btRembusy`: The lists of tags.
* `vmemAdd1`, `vmemImport`: New spans.
* `vmemFit`: The place an allocation can have in a tag.
* `vmemClip`, `xallocPass`, `vmemXalloc`: Allocation.
* `vmemXfree`: Freeing, with coalescing and release.
* `vmemRehash`: A new hash table.
-/

namespace FreeBSDKern.Vmem

open Lib Function

inductive BtType where
  | span
  | spanStatic
  | free
  | busy
deriving DecidableEq, Repr

structure Bt where
  start : Nat
  size : Nat
  type : BtType
deriving DecidableEq, Repr

structure Arena where
  tag : Nat → Bt
  /-- The number the next tag gets. -/
  nextTag : Nat
  seglist : List Nat
  freelist : Nat → List Nat
  hashlist : Nat → List Nat
  hashsize : Nat
  quantumMask : Nat
  quantumShift : Nat
  importQuantum : Nat
  /-- Whether there is an import function, and a release function. -/
  importfn : Bool
  releasefn : Bool
  nbusytag : Nat
  inuse : Nat
  size : Nat

def optorder : Nat := 5

def optvalue : Nat := 1 <<< optorder

def maxorder : Nat := optvalue - 1 + 64 - optorder

def hashsizeMin : Nat := 16

/-- Arithmetic of words. -/
def wadd (a b : Nat) : Nat := (a + b) % 2 ^ 64

def wneg (a : Nat) : Nat := (2 ^ 64 - a) % 2 ^ 64

def wsub (a b : Nat) : Nat := (a + (2 ^ 64 - b)) % 2 ^ 64

/-- `BT_ISSPAN_P`. -/
def isSpan (bt : Bt) : Bool := bt.type = .span || bt.type = .spanStatic

/-- `BT_END`. -/
def btEnd (bt : Bt) : Nat := wsub (wadd bt.start bt.size) 1

/-- `VMEM_ALIGNUP`. -/
def alignUp (addr align : Nat) : Nat := wneg (wneg addr &&& wneg align)

/-- `VMEM_CROSS_P`. -/
def crossP (addr1 addr2 boundary : Nat) : Bool := (addr1 ^^^ addr2) &&& wneg boundary ≠ 0

/-- `ORDER2SIZE`. -/
def order2size (order : Nat) : Nat :=
  if order < optvalue then order + 1 else 1 <<< (order - (optvalue - optorder - 1))

/-- `SIZE2ORDER`, with the number of the highest bit for `flsl`. -/
def size2order (size : Nat) : Nat :=
  if size ≤ optvalue then size - 1 else Nat.log2 size + 1 + (optvalue - optorder - 2)

inductive Strat where
  | bestfit
  | firstfit
deriving DecidableEq, Repr

/-- The number of the free list for a size. -/
def btFreeheadTofree (vm : Arena) (size : Nat) : Nat := size2order (size >>> vm.quantumShift)

/-- The number of the free list to begin with for a size. -/
def btFreeheadToalloc (vm : Arena) (size : Nat) (strat : Strat) : Nat :=
  let qsize := size >>> vm.quantumShift
  let idx := size2order qsize
  if strat = .firstfit ∧ order2size idx ≠ qsize then idx + 1 else idx

/-- `hash32_buf` over the bytes of an address, lowest first. -/
def hash32Buf (addr : Nat) : Nat → Nat → Nat → Nat
  | 0, _, hash => hash
  | len + 1, p, hash =>
    hash32Buf addr len (p + 1) ((hash * 33 + addr / 256 ^ p % 256) % 2 ^ 32)

/-- The number of the hash chain of an address. -/
def btHashhead (hashsize addr : Nat) : Nat := hash32Buf addr 8 0 0 % hashsize

/-- `bt_lookupbusy`. -/
def btLookupbusy (vm : Arena) (addr : Nat) : Option Nat :=
  (vm.hashlist (btHashhead vm.hashsize addr)).find? (fun bt => (vm.tag bt).start = addr)

/-- Write a tag. -/
def setTag (vm : Arena) (t : Nat) (bt : Bt) : Arena := { vm with tag := update vm.tag t bt }

/-- Take a new tag with its contents. -/
def btAlloc (vm : Arena) (bt : Bt) : Arena :=
  { vm with tag := update vm.tag vm.nextTag bt, nextTag := vm.nextTag + 1 }

def btRembusy (vm : Arena) (t : Nat) : Arena :=
  { vm with
    inuse := wsub vm.inuse (vm.tag t).size
    nbusytag := vm.nbusytag - 1
    hashlist := fun i => (vm.hashlist i).erase t }

def btInsbusy (vm : Arena) (t : Nat) : Arena :=
  let head := btHashhead vm.hashsize (vm.tag t).start
  { vm with
    hashlist := update vm.hashlist head (t :: vm.hashlist head)
    nbusytag := vm.nbusytag + 1
    inuse := wadd vm.inuse (vm.tag t).size }

def btRemseg (vm : Arena) (t : Nat) : Arena := { vm with seglist := vm.seglist.erase t }

def btInsseg (vm : Arena) (t prev : Nat) : Arena :=
  { vm with seglist := insertAfter vm.seglist prev t }

def btInssegTail (vm : Arena) (t : Nat) : Arena := { vm with seglist := vm.seglist ++ [t] }

def btRemfree (vm : Arena) (t : Nat) : Arena :=
  { vm with freelist := fun i => (vm.freelist i).erase t }

def btInsfree (vm : Arena) (t : Nat) : Arena :=
  let idx := btFreeheadTofree vm (vm.tag t).size
  { vm with freelist := update vm.freelist idx (t :: vm.freelist idx) }

/-- `vmem_rehash`: the chains of the old table, one after the other, are moved
    tag by tag to the new one. -/
def vmemRehash (vm : Arena) (newhashsize : Nat) : Arena :=
  ((List.range vm.hashsize).flatMap vm.hashlist).foldl
    (fun vm bt => btInsbusy (btRembusy vm bt) bt)
    { vm with hashlist := fun _ => [], hashsize := newhashsize }

/-- `vmem_add1`. -/
def vmemAdd1 (vm : Arena) (addr size : Nat) (type : BtType) : Arena :=
  let btspan := vm.nextTag
  let vm := btInssegTail (btAlloc vm { start := addr, size := size, type := type }) btspan
  let btfree := vm.nextTag
  let vm := btInsseg (btAlloc vm { start := addr, size := size, type := .free }) btfree btspan
  let vm := btInsfree vm btfree
  { vm with size := wadd vm.size size }

/-- The size of the span that is asked for in `vmem_import`. -/
def importSize (vm : Arena) (size align : Nat) : Nat :=
  let size := if align ≠ wadd vm.quantumMask 1 then wadd (align * 2) size else size
  (size + (vm.importQuantum - 1)) % 2 ^ 64 / vm.importQuantum * vm.importQuantum

/-- `vmem_import`, with the answer of the import function. -/
def vmemImport (vm : Arena) (size align : Nat) (answer : Option Nat) : Option Arena :=
  if vm.importfn then
    match answer with
    | none => none
    | some addr => some (vmemAdd1 vm addr (importSize vm size align) .span)
  else none

/-- The restrictions on an allocation, its size in quanta. -/
structure Limits where
  size : Nat
  align : Nat
  phase : Nat
  nocross : Nat
  minaddr : Nat
  maxaddr : Nat

/-- `vmem_fit`. -/
def vmemFit (bt : Bt) (l : Limits) : Option Nat :=
  let start := if bt.start < l.minaddr then l.minaddr else bt.start
  let stop := if btEnd bt > l.maxaddr then l.maxaddr else btEnd bt
  if start > stop then none
  else
    let start := wadd (alignUp (wsub start l.phase) l.align) l.phase
    let start := if start < bt.start then wadd start l.align else start
    let start := if crossP start (wsub (wadd start l.size) 1) l.nocross then
        wadd (alignUp (wsub start l.phase) l.nocross) l.phase
      else start
    if start ≤ stop ∧ l.size - 1 ≤ stop - start then some start else none

/-- The first half of `vmem_clip`: what lies before the allocation becomes a
    free tag of its own. The tag before the one that is clipped has to be
    there. -/
def clipFront (vm : Arena) (bt start : Nat) : Option Arena :=
  let b := vm.tag bt
  if b.start ≠ start then
    let btprev := vm.nextTag
    let psize := wsub start b.start
    let vm := btAlloc vm { start := b.start, size := psize, type := .free }
    let vm := setTag vm bt { b with start := start, size := wsub b.size psize }
    let vm := btInsfree vm btprev
    (prev? vm.seglist bt).map (fun p => btInsseg vm btprev p)
  else some vm

/-- The second half: what lies behind the allocation stays free. -/
def clipBack (vm : Arena) (bt size : Nat) : Option Arena :=
  let b := vm.tag bt
  if b.size ≠ size ∧ wsub b.size size > vm.quantumMask then
    let btnew := vm.nextTag
    let vm := btAlloc vm { start := b.start, size := size, type := .busy }
    let vm := setTag vm bt { b with start := wadd b.start size, size := wsub b.size size }
    let vm := btInsfree vm bt
    (prev? vm.seglist bt).map (fun p => btInsbusy (btInsseg vm btnew p) btnew)
  else some (btInsbusy (setTag vm bt { b with type := .busy }) bt)

/-- `vmem_clip`. -/
def vmemClip (vm : Arena) (bt start size : Nat) : Option Arena :=
  (clipFront (btRemfree vm bt) bt start).bind (fun vm => clipBack vm bt size)

/-- One free list of the scan in `vmem_xalloc`. First fit looks at the first tag
    only. -/
def scanList (tag : Nat → Bt) (l : Limits) (strat : Strat) : List Nat → Option (Nat × Nat)
  | [] => none
  | bt :: bts =>
    match (if l.size ≤ (tag bt).size then vmemFit (tag bt) l else none) with
    | some addr => some (bt, addr)
    | none => if strat = .firstfit then none else scanList tag l strat bts

/-- The scan over the free lists. -/
def scanLists (vm : Arena) (l : Limits) (strat : Strat) : Nat → Nat → Option (Nat × Nat)
  | 0, _ => none
  | n + 1, list =>
    match scanList vm.tag l strat (vm.freelist list) with
    | some r => some r
    | none => scanLists vm l strat n (list + 1)

def scan (vm : Arena) (l : Limits) (strat : Strat) : Option (Nat × Nat) :=
  let first := btFreeheadToalloc vm l.size strat
  scanLists vm l strat (maxorder - first) first

/-- What is searched in one pass of the loop of `vmem_xalloc`: where first fit
    finds nothing, best fit is tried. -/
def search (vm : Arena) (l : Limits) (strat : Strat) : Option (Nat × Nat) :=
  match scan vm l strat with
  | some r => some r
  | none => if strat = .firstfit then scan vm l .bestfit else none

def vmemRoundupSize (vm : Arena) (size : Nat) : Nat :=
  wadd size vm.quantumMask &&& (2 ^ 64 - 1 - vm.quantumMask)

/-- The arguments of `vmem_xalloc`. -/
structure XallocArgs where
  size0 : Nat
  align : Nat
  phase : Nat
  nocross : Nat
  minaddr : Nat
  maxaddr : Nat
  strat : Strat

def limits (vm : Arena) (args : XallocArgs) : Limits :=
  { size := vmemRoundupSize vm args.size0
    align := if args.align = 0 then wadd vm.quantumMask 1 else args.align
    phase := args.phase
    nocross := args.nocross
    minaddr := args.minaddr
    maxaddr := args.maxaddr }

/-- One pass of the loop of `vmem_xalloc`: the address, or nothing if there is no
    place or there are no tags. -/
def xallocPass (vm : Arena) (args : XallocArgs) (tags : Bool) : Option (Option Nat × Arena) :=
  if tags then
    let l := limits vm args
    match search vm l args.strat with
    | none => some (none, vm)
    | some (bt, addr) => (vmemClip vm bt addr l.size).map (fun vm => (some addr, vm))
  else some (none, vm)

/-- `vmem_xalloc` without waiting, with the answers of the import function. A
    pass after an import is a best fit. -/
def vmemXalloc (vm : Arena) (args : XallocArgs) : List (Option Nat) → Option (Option Nat × Arena)
  | [] => xallocPass vm args true
  | answer :: answers =>
    match xallocPass vm args true with
    | none => none
    | some (some addr, vm) => some (some addr, vm)
    | some (none, vm) =>
      match vmemImport vm (limits vm args).size (limits vm args).align answer with
      | none => some (none, vm)
      | some vm => vmemXalloc vm { args with strat := .bestfit } answers

/-- Merge a tag with the free one behind it. -/
def coalesceNext (vm : Arena) (bt : Nat) : Arena :=
  match next? vm.seglist bt with
  | none => vm
  | some t =>
    if (vm.tag t).type = .free then
      let vm := setTag vm bt { vm.tag bt with size := wadd (vm.tag bt).size (vm.tag t).size }
      btRemseg (btRemfree vm t) t
    else vm

/-- Merge a tag with the free one before it. -/
def coalescePrev (vm : Arena) (bt : Nat) : Arena :=
  match prev? vm.seglist bt with
  | none => vm
  | some t =>
    if (vm.tag t).type = .free then
      let vm := setTag vm bt { vm.tag bt with
        size := wadd (vm.tag bt).size (vm.tag t).size, start := (vm.tag t).start }
      btRemseg (btRemfree vm t) t
    else vm

/-- The end of `vmem_xfree`: an imported span that is empty is released, else
    the tag is free. -/
def releaseOrInsfree (vm : Arena) (bt : Nat) : Option Arena :=
  match prev? vm.seglist bt with
  | none => none
  | some t =>
    if vm.releasefn ∧ (vm.tag t).type = .span ∧ (vm.tag t).size = (vm.tag bt).size then
      let spansize := (vm.tag bt).size
      let vm := btRemseg (btRemseg vm bt) t
      some { vm with size := wsub vm.size spansize }
    else some (btInsfree vm bt)

/-- `vmem_xfree`. The size is only looked at by assertions. -/
def vmemXfree (vm : Arena) (addr : Nat) : Option Arena :=
  match btLookupbusy vm addr with
  | none => none
  | some bt =>
    let vm := btRembusy vm bt
    let vm := setTag vm bt { vm.tag bt with type := .free }
    releaseOrInsfree (coalescePrev (coalesceNext vm bt) bt) bt

/-- `vmem_init` without its first span. -/
def vmemInit (quantum importQuantum : Nat) (importfn releasefn : Bool) : Arena :=
  { tag := fun _ => { start := 0, size := 0, type := .free }
    nextTag := 0
    seglist := []
    freelist := fun _ => []
    hashlist := fun _ => []
    hashsize := hashsizeMin
    quantumMask := quantum - 1
    quantumShift := Nat.log2 quantum + 1 - 1
    importQuantum := importQuantum
    importfn := importfn
    releasefn := releasefn
    nbusytag := 0
    inuse := 0
    size := 0 }

end FreeBSDKern.Vmem
