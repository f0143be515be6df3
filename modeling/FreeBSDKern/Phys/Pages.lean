import FreeBSDKern.Lib.Buddy

/-!
# The Physical Page Allocator

The free queues of `sys/vm/vm_phys.c` and the operations on them.

A page is its number, the physical address without the offset inside the page,
so that `&m[n]` is `m + n`. The segments that share a free list are sorted by
address and their pages lie side by side in the page array in that order, and
the one place that walks from one segment into the next does so only where the
addresses are adjacent as well. What the allocator keeps of a page is its order
and its pool. The counts of the queues (`lcnt`) and of the free pages are read
by nothing here and are left out.

The machine-dependent constants and the segments are fixed once the system runs,
and `Conf` holds them with what `vm_phys_add_seg` asserts about them and what
`_vm_phys_create_seg` establishes.

## Main definitions

* `Conf`: The constants and the segments.
* `Pages`: The pages and the free queues.
* `vmPhysFreePages`, `vmPhysFreeContig`: Giving pages back.
* `vmPhysAllocDomainPages`, `vmPhysAllocPages`: Taking a block.
* `vmPhysUnfreePage`: Taking one particular page.
* `vmPhysAllocContig`: Taking a run of pages of any length.
-/

namespace FreeBSDKern.Phys

open Function

def pageShift : Nat := 12

/-- The first of the pools, `VM_FREEPOOL_DEFAULT`. -/
def freepoolDefault : Nat := 0

/-- `VM_PAGE_TO_PHYS`. -/
def toPhys (m : Nat) : Nat := m <<< pageShift

def atop (x : Nat) : Nat := x >>> pageShift

/-- The byte size of a number of pages, as an `unsigned long`. -/
def ptoa (x : Nat) : Nat := (x <<< pageShift) % 2 ^ 64

/-- The free lists of one pool: `vm_phys_free_queues[domain][flind][pool]`. -/
structure Freelist where
  domain : Nat
  flind : Nat
  pool : Nat
deriving DecidableEq

/-- A `vm_phys_seg`, from `start` up to its `end`. The pair of the domain and the
    free list index stands for the pointer to its free queues. -/
structure Seg where
  start : Nat
  stop : Nat
  domain : Nat
  flind : Nat
deriving DecidableEq, Inhabited

/-- `(*seg->free_queues)[pool]`. -/
def Seg.freeQueues (seg : Seg) (pool : Nat) : Freelist := ⟨seg.domain, seg.flind, pool⟩

/-- `&seg->first_page[atop(pa - seg->start)]`. -/
def Seg.page (seg : Seg) (pa : Nat) : Nat := atop seg.start + atop (pa - seg.start)

/-- The constants of the machine and its segments. The largest block is addressed
    with an `int`. Segments are made of whole pages, sorted, and lie in the lower
    half of what a physical address can express. -/
structure Conf where
  nfreeorder : Nat
  nfreepool : Nat
  nfreelists : Nat
  segs : List Seg
  order_pos : 0 < nfreeorder
  order_le : pageShift + nfreeorder ≤ 31
  seg_pages : ∀ s ∈ segs, 2 ^ pageShift ∣ s.start ∧ 2 ^ pageShift ∣ s.stop ∧ s.stop ≤ 2 ^ 63
  seg_sorted : segs.Pairwise (fun s t => s.stop ≤ t.start)

/-- What the allocator keeps: the order and the pool of every page, and the free
    queues. -/
structure Pages where
  order : Nat → Nat
  pool : Nat → Nat
  queues : Freelist × Nat → List Nat

variable (c : Conf)

/-- After `vm_phys_init`: no page is free. -/
def vmPhysInit : Pages := ⟨fun _ => c.nfreeorder, fun _ => freepoolDefault, fun _ => []⟩

/-- `vm_phys_segs[m->segind]`. Only pages of segments have a `vm_page`. -/
def segOf (m : Nat) : Seg :=
  (c.segs.find? (fun s => s.start ≤ toPhys m ∧ toPhys m < s.stop)).getD default

/-- Put a page at the tail or the head of a queue. -/
def vmFreelistAdd (st : Pages) (fl : Freelist) (m order : Nat) (tail : Bool) : Pages :=
  { st with
    order := update st.order m order
    queues := update st.queues (fl, order)
      (if tail then st.queues (fl, order) ++ [m] else m :: st.queues (fl, order)) }

def vmFreelistRem (st : Pages) (fl : Freelist) (m order : Nat) : Pages :=
  { st with
    order := update st.order m c.nfreeorder
    queues := update st.queues (fl, order) ((st.queues (fl, order)).erase m) }

/-- The pool of every page of a block is set. -/
def vmPhysSetPool (pool : Nat) (st : Pages) (m order : Nat) : Pages :=
  { st with pool := fun p => if m ≤ p ∧ p < m + 1 <<< order then pool else st.pool p }

/-- While the block is larger than asked for, its upper half goes to the head of
    its queue. -/
def vmPhysSplitPages (fl : Freelist) (m order : Nat) : Nat → Pages → Pages
  | 0, st => st
  | oind + 1, st =>
    if order < oind + 1 then
      vmPhysSplitPages fl m order oind (vmFreelistAdd st fl (m + 1 <<< oind) oind false)
    else st

/-- The first block of its own pool that is large enough, in order of size, or
    else the largest block of any pool, which then changes its pool. -/
def vmPhysAllocDomainPages (st : Pages) (domain flind pool order : Nat) : Option Nat × Pages :=
  let fl : Freelist := ⟨domain, flind, pool⟩
  let oinds := List.range' order (c.nfreeorder - order)
  match oinds.findSome? (fun oind => (st.queues (fl, oind)).head?.map (fun m => (m, oind))) with
  | some (m, oind) => (some m, vmPhysSplitPages fl m order oind (vmFreelistRem c st fl m oind))
  | none =>
    match oinds.reverse.findSome? (fun oind => (List.range c.nfreepool).findSome? (fun pind =>
      (st.queues (⟨domain, flind, pind⟩, oind)).head?.map (fun m => (m, oind, pind)))) with
    | some (m, oind, pind) =>
      let st := vmFreelistRem c st ⟨domain, flind, pind⟩ m oind
      (some m, vmPhysSplitPages fl m order oind (vmPhysSetPool pool st m oind))
    | none => (none, st)

/-- The free lists of the domains are tried one after the other. The domains are
    those the policy's iterator yields. -/
def vmPhysAllocPages (st : Pages) (pool order : Nat) : List (Nat × Nat) → Option Nat × Pages
  | [] => (none, st)
  | (domain, flind) :: rest =>
    match vmPhysAllocDomainPages c st domain flind pool order with
    | (some m, st') => (some m, st')
    | (none, st') => vmPhysAllocPages st' pool order rest

/-- The free lists of a sequence of domains. -/
def freelists (domains : List Nat) : List (Nat × Nat) :=
  domains.flatMap (fun domain => (List.range c.nfreelists).map (fun flind => (domain, flind)))

/-- `x & ~((1 << n) - 1)`. -/
def truncTo (x n : Nat) : Nat := x >>> n <<< n

/-- The loop of `vm_phys_free_pages`: as long as the buddy is free and of the same
    order, it is taken from its queue and joined. The buddy gets the pool of the
    block. -/
def coalesce (seg : Seg) : Nat → Pages → Nat → Nat → Nat → Pages × Nat × Nat
  | 0, st, m, _, order => (st, m, order)
  | gas + 1, st, m, pa, order =>
    let pa := pa ^^^ (1 <<< (pageShift + order))
    if pa < seg.start ∨ seg.stop ≤ pa then (st, m, order)
    else
      let mBuddy := seg.page pa
      if st.order mBuddy ≠ order then (st, m, order)
      else
        let st := vmFreelistRem c st (seg.freeQueues (st.pool mBuddy)) mBuddy order
        let st := if st.pool mBuddy ≠ st.pool m then vmPhysSetPool (st.pool m) st mBuddy order
          else st
        let pa := truncTo pa (pageShift + (order + 1))
        coalesce seg gas st (seg.page pa) pa (order + 1)

/-- Free a block. -/
def vmPhysFreePages (st : Pages) (m order : Nat) : Pages :=
  let seg := segOf c m
  let (st, m, order) := coalesce c seg (c.nfreeorder - 1 - order) st m (toPhys m) order
  vmFreelistAdd st (seg.freeQueues (st.pool m)) m order true

/-- The number of the lowest bit that is set, counted from one, or zero. -/
def ffsl (x : Nat) : Nat := ((List.range 64).find? (fun i => x.testBit i)).elim 0 (fun i => i + 1)

/-- The order of the largest block that can start at a page. For page zero the
    unsigned difference is the largest `u_int`. -/
def startOrder (m : Nat) : Nat :=
  min ((ffsl (toPhys m >>> pageShift) + (2 ^ 32 - 1)) % 2 ^ 32) (c.nfreeorder - 1)

/-- The first loop of `vm_phys_free_contig`: the largest blocks that start where the
    remaining pages do. -/
def freeContigUp : Nat → Pages → Nat → Nat → Pages × Nat × Nat
  | 0, st, m, npages => (st, m, npages)
  | gas + 1, st, m, npages =>
    let order := startOrder c m
    if npages < 1 <<< order then (st, m, npages)
    else freeContigUp gas (vmPhysFreePages c st m order) (m + 1 <<< order) (npages - 1 <<< order)

/-- The second loop: the largest blocks that the remaining pages contain. The order
    is `flsl(npages) - 1`. -/
def freeContigDown : Nat → Pages → Nat → Nat → Pages
  | 0, st, _, _ => st
  | gas + 1, st, m, npages =>
    if npages = 0 then st
    else
      let order := npages.log2
      freeContigDown gas (vmPhysFreePages c st m order) (m + 1 <<< order) (npages - 1 <<< order)

/-- Free a run of pages. Both loops free at least a page in each turn. -/
def vmPhysFreeContig (st : Pages) (m npages : Nat) : Pages :=
  let (st, m, npages) := freeContigUp c npages st m npages
  freeContigDown c npages st m npages

/-- The first loop of `vm_phys_unfree_page`: the block that may contain the page,
    with the order at which the search ended. -/
def unfreeSearch (seg : Seg) (st : Pages) (m : Nat) : Nat → Nat → Nat → Option (Nat × Nat)
  | 0, mSet, order => some (mSet, order)
  | gas + 1, mSet, order =>
    if st.order mSet = c.nfreeorder then
      let pa := truncTo (toPhys m) (pageShift + (order + 1))
      if seg.start ≤ pa then unfreeSearch seg st m gas (seg.page pa) (order + 1)
      else none
    else some (mSet, order)

/-- The second loop: the half of the block without the page goes back to the head of
    its queue. -/
def unfreeExtract (seg : Seg) (fl : Freelist) (m : Nat) : Nat → Pages → Nat → Pages
  | 0, st, _ => st
  | order + 1, st, mSet =>
    let paHalf := toPhys mSet ^^^ (1 <<< (pageShift + order))
    if toPhys m < paHalf then
      unfreeExtract seg fl m order (vmFreelistAdd st fl (seg.page paHalf) order false) mSet
    else
      unfreeExtract seg fl m order (vmFreelistAdd st fl mSet order false) (seg.page paHalf)

/-- Take one page out of the free lists, if it is there. -/
def vmPhysUnfreePage (st : Pages) (m : Nat) : Bool × Pages :=
  let seg := segOf c m
  match unfreeSearch c seg st m (c.nfreeorder - 1) m 0 with
  | none => (false, st)
  | some (mSet, order) =>
    if st.order mSet < order ∨ st.order mSet = c.nfreeorder then (false, st)
    else
      let fl := seg.freeQueues (st.pool mSet)
      let order := st.order mSet
      (true, unfreeExtract seg fl m order (vmFreelistRem c st fl mSet order) mSet)

/-- What a caller of `vm_phys_alloc_contig` asks for. -/
structure Request where
  npages : Nat
  low : Nat
  high : Nat
  alignment : Nat
  boundary : Nat
deriving DecidableEq

/-- The order of the smallest block with that many pages. At 31 the `int` that is
    shifted turns negative, and as an `unsigned long` it is larger than any number
    of pages before it. -/
def fitOrder (npages : Nat) : Nat :=
  ((List.range 31).find? (fun order => npages ≤ 1 <<< order)).getD 31

/-- The address where the search for further largest blocks ends: the first that is
    not needed, not in the segment or not free. -/
def blocksEnd (seg : Seg) (st : Pages) (paEnd : Nat) : Nat → Nat → Nat
  | 0, pa => pa
  | gas + 1, pa =>
    let pa := pa + 1 <<< (pageShift + (c.nfreeorder - 1))
    if paEnd ≤ pa ∨ pa < seg.start ∨ seg.stop ≤ pa then pa
    else if st.order (seg.page pa) ≠ c.nfreeorder - 1 then pa
    else blocksEnd seg st paEnd gas pa

/-- A run that starts at this page meets the request. -/
def runFits (seg : Seg) (st : Pages) (r : Request) (m : Nat) : Bool :=
  let pa := toPhys m
  let paEnd := (pa + ptoa r.npages) % 2 ^ 64
  let low := BitVec.ofNat 64 pa
  let high := BitVec.ofNat 64 paEnd
  (fitOrder r.npages < c.nfreeorder ∨ paEnd ≤ blocksEnd c seg st paEnd r.npages pa) ∧
    r.low ≤ pa ∧ paEnd ≤ r.high ∧ low &&& (BitVec.ofNat 64 r.alignment - 1) = 0 ∧
    (low ^^^ (high - 1)) &&& ~~~ (BitVec.ofNat 64 r.boundary - 1) = 0

/-- The first block at which a run meets the request, with the order of the queue it
    was found on. -/
def findRun (seg : Seg) (st : Pages) (r : Request) : Option (Nat × Nat) :=
  let oind := min (fitOrder r.npages) (c.nfreeorder - 1)
  (List.range' oind (c.nfreeorder - oind)).findSome? (fun oind =>
    (List.range c.nfreepool).findSome? (fun pind =>
      ((st.queues (seg.freeQueues pind, oind)).find? (runFits c seg st r)).map
        (fun m => (m, oind))))

/-- The blocks of the run leave their queues. -/
def removeRun (seg : Seg) (oind : Nat) : Nat → Pages → Nat → Pages
  | 0, st, _ => st
  | n + 1, st, m =>
    removeRun seg oind n (vmFreelistRem c st (seg.freeQueues (st.pool m)) m (st.order m))
      (m + 1 <<< oind)

/-- `roundup2`, for a power of two. -/
def roundup2 (x y : Nat) : Nat := (x + (y - 1)) / y * y

/-- Take a run from the free lists of a segment. Only the first block changes its
    pool, and what is not needed goes back. -/
def vmPhysAllocSegContig (seg : Seg) (st : Pages) (r : Request) : Option (Nat × Pages) :=
  match findRun c seg st r with
  | none => none
  | some (mRet, oind) =>
    let order := fitOrder r.npages
    let st := removeRun c seg oind (roundup2 r.npages (1 <<< oind) >>> oind) st mRet
    let st := if st.pool mRet ≠ freepoolDefault then vmPhysSetPool freepoolDefault st mRet oind
      else st
    let st := vmPhysSplitPages (seg.freeQueues (st.pool mRet)) mRet order oind st
    let npagesEnd := roundup2 r.npages (1 <<< min oind order)
    some (mRet, if r.npages < npagesEnd then
      vmPhysFreeContig c st (mRet + r.npages) (npagesEnd - r.npages) else st)

/-- The segments of one domain are tried in order of their addresses. -/
def allocFromSegs (domain : Nat) (st : Pages) (r : Request) : List Seg → Option (Nat × Pages)
  | [] => none
  | seg :: rest =>
    if r.high ≤ seg.start then none
    else if seg.stop ≤ r.low ∨ seg.domain ≠ domain then allocFromSegs domain st r rest
    else
      let paStart := if r.low ≤ seg.start then seg.start else r.low
      let paEnd := if r.high < seg.stop then r.high else seg.stop
      if paEnd - paStart < ptoa r.npages then allocFromSegs domain st r rest
      else
        match vmPhysAllocSegContig c seg st r with
        | some found => some found
        | none => allocFromSegs domain st r rest

/-- Take a run of pages from the first domain that has one. -/
def vmPhysAllocContig (st : Pages) (r : Request) (domains : List Nat) : Option (Nat × Pages) :=
  if r.high ≤ r.low then none
  else domains.findSome? (fun domain => allocFromSegs c domain st r c.segs)

/-- A call of the allocator, with the domains that the policy's iterator yields. -/
inductive Op
  | freePages (m order : Nat)
  | freeContig (m npages : Nat)
  | allocPages (domains : List Nat) (pool order : Nat)
  | unfreePage (m : Nat)
  | allocContig (domains : List Nat) (r : Request)
deriving DecidableEq

/-- The first page a call returns, if it returns any, and the state after it. -/
def exec (st : Pages) : Op → Option Nat × Pages
  | .freePages m order => (none, vmPhysFreePages c st m order)
  | .freeContig m npages => (none, vmPhysFreeContig c st m npages)
  | .allocPages domains pool order => vmPhysAllocPages c st pool order (freelists c domains)
  | .unfreePage m =>
    let (found, st) := vmPhysUnfreePage c st m
    (if found then some m else none, st)
  | .allocContig domains r =>
    match vmPhysAllocContig c st r domains with
    | some (m, st') => (some m, st')
    | none => (none, st)

end FreeBSDKern.Phys
