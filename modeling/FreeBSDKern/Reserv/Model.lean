import FreeBSDKern.Lib.WordMap

/-!
# Superpage Reservations

The reservation system of `vm_reserv.c`. A superpage is 512 pages; reservation
`r` stands for pages `512 * r` to `512 * r + 511`, and belongs to an object while
it is active. It knows which of its pages are in use by a bitmap of eight words,
a count, a flag with a place on the queue of partially populated reservations,
and the page size index of its first page, which is one while all its pages are
in use.

Pages are numbers. The physical memory allocator is seen through the pages that
are in its free lists, and its answers are arguments: `phys` says what
`vm_phys_alloc_pages` or `vm_phys_alloc_contig` returns for a request. Offsets
into an object are 64-bit and wrap. The colour of an object, its size and whether
it is backed by a vnode come with the call. A `KASSERT` that fails makes the
result `none`.

## Main definitions

* `Rv`, `State`: A reservation, and all of them with the free lists.
* `populate`, `depopulate`: Taking a page of a reservation into use and back.
* `breakLoop`, `vmReservBreak`: Dissolving a reservation.
* `allocPage`, `allocContig`, `freePage`, `reactivatePage`, `rename`, `breakAll`,
  `reclaimInactive`, `reclaimContig`: The operations.
-/

namespace FreeBSDKern.Reserv

open Lib Function

/-- `VM_LEVEL_0_NPAGES`. -/
def npages0 : Nat := 512

/-- The bits of a word of the population map, `NBPOPMAP`. -/
def nbpopmap : Nat := 64

/-- The words of a population map, `NPOPMAP`. -/
def npopmap : Nat := 8

def pageShift : Nat := 12

structure Rv where
  object : Option Nat
  pindex : BitVec 64
  popcnt : Int
  inpartpopq : Bool
  popmap : List (BitVec 64)
  deriving DecidableEq

structure State where
  rv : Nat → Rv
  partpop : List Nat
  /-- The reservations of an object. -/
  rvq : Nat → List Nat
  /-- The page size index of a page. -/
  psind : Nat → Nat
  /-- The pages in the free lists of the physical memory allocator. -/
  free : Nat → Bool

/-- The reservations before any is made, over the pages that are free. -/
def vmReservInit (free : Nat → Bool) : State where
  rv := fun _ => ⟨none, 0#64, 0, false, List.replicate npopmap 0#64⟩
  partpop := []
  rvq := fun _ => []
  psind := fun _ => 0
  free := free

def popmapIsSet (popmap : List (BitVec 64)) (i : Nat) : Bool := WordMap.bit popmap i

@[noinline] def State.setRv (s : State) (r : Nat) (v : Rv) : State :=
  { s with rv := update s.rv r v }

/-- The free lists with a run of pages added. -/
def physFree (free : Nat → Bool) (m n : Nat) : Nat → Bool :=
  fun p => free p || (decide (m ≤ p) && decide (p < m + n))

/-- The free lists with a run of pages taken out. -/
def physTake (free : Nat → Bool) (m n : Nat) : Nat → Bool :=
  fun p => free p && !(decide (m ≤ p) && decide (p < m + n))

def vmReservFromPage (m : Nat) : Nat := m / npages0

/-- `VM_RESERV_INDEX`, with the colour of the object. -/
def vmReservIndex (color pindex : BitVec 64) : Nat := (color + pindex).toNat % npages0

def vmReservHasPindex (rv : Rv) (pindex : BitVec 64) : Bool :=
  (pindex - rv.pindex) &&& ~~~(BitVec.ofNat 64 (npages0 - 1)) = 0#64

def depopulate (s : State) (r index : Nat) : Option State :=
  let rv := s.rv r
  if rv.object = none ∨ popmapIsSet rv.popmap index = false ∨ rv.popcnt ≤ 0 then none
  else if rv.inpartpopq = false ∧ s.psind (r * npages0) ≠ 1 then none
  else
    let s :=
      if rv.inpartpopq then { s with partpop := s.partpop.erase r }
      else { s with psind := update s.psind (r * npages0) 0 }
    let popmap := WordMap.clearBit rv.popmap index
    let popcnt := rv.popcnt - 1
    if popcnt = 0 then
      some { s.setRv r
          { rv with popmap := popmap, popcnt := popcnt, inpartpopq := false, object := none } with
        rvq := fun o => if rv.object = some o then (s.rvq o).erase r else s.rvq o
        free := physFree s.free (r * npages0) npages0 }
    else
      some { s.setRv r { rv with popmap := popmap, popcnt := popcnt, inpartpopq := true } with
        partpop := s.partpop ++ [r] }

def populate (s : State) (r index : Nat) : Option State :=
  let rv := s.rv r
  if rv.object = none ∨ popmapIsSet rv.popmap index = true ∨ rv.popcnt ≥ npages0 ∨
      s.psind (r * npages0) ≠ 0 then none
  else
    let partpop := if rv.inpartpopq then s.partpop.erase r else s.partpop
    let popmap := WordMap.setBit rv.popmap index
    let popcnt := rv.popcnt + 1
    if popcnt < npages0 then
      some { s.setRv r { rv with popmap := popmap, popcnt := popcnt, inpartpopq := true } with
        partpop := partpop ++ [r] }
    else
      some { s.setRv r { rv with popmap := popmap, popcnt := popcnt, inpartpopq := false } with
        partpop := partpop
        psind := update s.psind (r * npages0) 1 }

/-- Populate `n` pages from `index` on. -/
def populateRange (s : State) (r index : Nat) : Nat → Option State
  | 0 => some s
  | n + 1 => (populateRange s r index n).bind (fun s => populate s r (index + n))

/-- The bits of a word below `n`, as `(1UL << n) - 1`. -/
def below (n : Nat) : BitVec 64 := (1#64 <<< n) - 1#64

/-- The words that are full, from word `i` on with `n` words left. They are
    cleared on the way. -/
def skipFull : Nat → Nat → List (BitVec 64) → Int → Nat × List (BitVec 64) × Int
  | 0, i, popmap, popcnt => (i, popmap, popcnt)
  | n + 1, i, popmap, popcnt =>
    if WordMap.ffs (~~~(WordMap.word popmap i)) = 0 then
      skipFull n (i + 1) (popmap.set i 0#64) (popcnt - nbpopmap)
    else (i, popmap, popcnt)

/-- The next set bit, from word `i` on with `n` words left: its word, and its
    position in it counted from one. -/
def nextOne (popmap : List (BitVec 64)) : Nat → Nat → Nat × Nat
  | 0, i => (i, 0)
  | n + 1, i =>
    if WordMap.ffs (WordMap.word popmap i) = 0 then nextOne popmap n (i + 1)
    else (i, WordMap.ffs (WordMap.word popmap i))

/-- Where the loop of `vm_reserv_break` stands. -/
structure Break where
  popmap : List (BitVec 64)
  popcnt : Int
  i : Nat
  hi : Nat

/-- The first half of a round: the next free page, and the map up to it
    cleared. -/
def breakZero (b : Break) : Break × Nat :=
  let lo := WordMap.ffs (~~~(below b.hi ||| WordMap.word b.popmap b.i))
  if lo = 0 then
    let r := skipFull (npopmap - (b.i + 1)) (b.i + 1) (b.popmap.set b.i 0#64)
      (b.popcnt - (nbpopmap - b.hi))
    (⟨r.2.1, r.2.2, r.1, 0⟩, WordMap.ffs (~~~(WordMap.word r.2.1 r.1)))
  else (b, lo)

/-- The map cleared below position `lo` of the word. -/
def breakClear (b : Break) (lo : Nat) : Break :=
  if lo > 0 then
    { b with
      popmap := b.popmap.set b.i (WordMap.word b.popmap b.i &&& ~~~(below lo))
      popcnt := b.popcnt - (lo - b.hi) }
  else b

/-- The loop of `vm_reserv_break`, freeing the unused pages from `base` on. -/
def breakLoop (base : Nat) : Nat → Break → (Nat → Bool) → Option (Break × (Nat → Bool))
  | 0, _, _ => none
  | n + 1, b, free =>
    let (b, lo) := breakZero b
    if b.i = npopmap then some (b, free)
    else if lo = 0 then none
    else
      let lo := lo - 1
      let b := breakClear b lo
      let beginZeroes := nbpopmap * b.i + lo
      let one := nextOne b.popmap (npopmap - b.i) b.i
      let hi := if one.1 ≠ npopmap then one.2 - 1 else one.2
      let free := physFree free (base + beginZeroes) (nbpopmap * one.1 + hi - beginZeroes)
      let b := { b with i := one.1, hi := hi }
      if one.1 < npopmap then breakLoop base n b free else some (b, free)

/-- The map and the count `vm_reserv_break` starts from: with the page `m` that is
    not to be returned to the allocator. -/
def breakStart (rv : Rv) (r : Nat) (m : Option Nat) : Option (List (BitVec 64) × Int) :=
  match m with
  | none => some (rv.popmap, rv.popcnt)
  | some m =>
    if popmapIsSet rv.popmap (m - r * npages0) then none
    else some (WordMap.setBit rv.popmap (m - r * npages0), rv.popcnt + 1)

def vmReservBreak (s : State) (r : Nat) (m : Option Nat) : Option State :=
  let rv := s.rv r
  if rv.object = none ∨ rv.inpartpopq then none
  else
    match breakStart rv r m with
    | none => none
    | some (popmap, popcnt) =>
      match breakLoop (r * npages0) (npages0 + 1) ⟨popmap, popcnt, 0, 0⟩ s.free with
      | none => none
      | some (b, free) =>
        if b.popcnt ≠ 0 then none
        else
          some { s.setRv r
              { rv with object := none, popmap := b.popmap, popcnt := b.popcnt } with
            rvq := fun o => if rv.object = some o then (s.rvq o).erase r else s.rvq o
            free := free }

/-- Taking a reservation off the queue of partially populated ones. -/
def unqueue (s : State) (r : Nat) : State :=
  { s.setRv r { s.rv r with inpartpopq := false } with partpop := s.partpop.erase r }

/-- The loop of `vm_reserv_break_all`, with at most `n` reservations to go. -/
def breakAllLoop (object : Nat) : Nat → State → Option State
  | 0, s => if s.rvq object = [] then some s else none
  | n + 1, s =>
    match s.rvq object with
    | [] => some s
    | r :: _ =>
      if (s.rv r).object ≠ some object then none
      else
        (vmReservBreak (if (s.rv r).inpartpopq then unqueue s r else s) r none).bind
          (breakAllLoop object n)

def breakAll (s : State) (object : Nat) : Option State :=
  breakAllLoop object (s.rvq object).length s

def freePage (s : State) (m : Nat) : Option (Bool × State) :=
  let r := vmReservFromPage m
  if (s.rv r).object = none then some (false, s)
  else (depopulate s r (m - r * npages0)).map (fun s => (true, s))

/-- `vm_reserv_reactivate_page` of a cached page with this object and offset. -/
def reactivatePage (s : State) (m : Nat) (object : Nat) (color pindex : BitVec 64) :
    Option (Bool × State) :=
  let r := vmReservFromPage m
  let rv := s.rv r
  let index := vmReservIndex color pindex
  if rv.object = none then some (false, s)
  else if rv.object = some object ∧ (pindex - rv.pindex).toNat = index then
    (populate s r index).map (fun s => (true, s))
  else if rv.inpartpopq = false then none
  else (vmReservBreak (unqueue s r) r (some m)).map (fun s => (true, s))

def vmReservReclaim (s : State) (r : Nat) : Option State :=
  if (s.rv r).inpartpopq = false then none else vmReservBreak (unqueue s r) r none

def reclaimInactive (s : State) : Option (Bool × State) :=
  match s.partpop with
  | [] => some (false, s)
  | r :: _ => (vmReservReclaim s r).map (fun s => (true, s))

def rename (s : State) (m newObject oldObject : Nat) (offset : BitVec 64) : State :=
  let r := vmReservFromPage m
  let rv := s.rv r
  if rv.object = some oldObject then
    let rvq := fun o => if o = oldObject then (s.rvq o).erase r else s.rvq o
    { s.setRv r { rv with object := some newObject, pindex := rv.pindex - offset } with
      rvq := fun o => if o = newObject then r :: rvq o else rvq o }
  else s

/-- What the allocating functions read of an object. -/
structure Object where
  id : Nat
  color : BitVec 64
  size : BitVec 64
  /-- The object is a vnode or is backed by one. -/
  vnode : Bool

/-- A resident page of the object, with its offset. -/
structure Page where
  page : Nat
  pindex : BitVec 64

/-- What is asked of the physical memory allocator. -/
structure Request where
  npages : Nat
  low : BitVec 64
  high : BitVec 64
  alignment : BitVec 64
  boundary : BitVec 64

/-- The reservation of a neighbouring page, if it also covers `pindex`. -/
def neighbour (s : State) (object : Object) (pindex : BitVec 64) (m : Option Page) : Option Nat :=
  match m with
  | none => none
  | some m =>
    let r := vmReservFromPage m.page
    if (s.rv r).object = some object.id ∧ vmReservHasPindex (s.rv r) pindex then some r else none

/-- The first offset to the left that can be used. -/
def leftcap (s : State) (object : Object) (mpred : Page) : BitVec 64 :=
  let rv := s.rv (vmReservFromPage mpred.page)
  if rv.object ≠ some object.id then mpred.pindex + 1#64
  else rv.pindex + BitVec.ofNat 64 npages0

/-- The first offset to the right that cannot be used. -/
def rightcap (s : State) (object : Object) (msucc : Page) : BitVec 64 :=
  let rv := s.rv (vmReservFromPage msucc.page)
  if rv.object ≠ some object.id then msucc.pindex else rv.pindex

/-- `m = NULL` or the page to its left leaves room for a reservation. -/
def leftFits (s : State) (object : Object) (first : BitVec 64) (mpred : Option Page) : Bool :=
  match mpred with
  | none => true
  | some m => leftcap s object m ≤ first

/-- The page to the right is in the way of reservations up to `last`. -/
def crowded (s : State) (object : Object) (last : BitVec 64) (msucc : Option Page) : Bool :=
  match msucc with
  | none => false
  | some m => rightcap s object m < last

/-- A new reservation would extend past the end of an object that will not grow. -/
def pastEnd (object : Object) (last : BitVec 64) : Bool := object.size < last ∧ object.vnode

/-- The bytes of a superpage, `VM_LEVEL_0_SIZE`. -/
def level0Size : BitVec 64 := BitVec.ofNat 64 (npages0 * 2 ^ pageShift)

/-- The request for one superpage, of `VM_LEVEL_0_ORDER`. -/
def level0Request : Request := ⟨npages0, 0#64, BitVec.allOnes 64, level0Size, 0#64⟩

/-- The new reservation is put on the list of its object. -/
def newReserv (s : State) (object : Object) (r : Nat) (first : BitVec 64) : Option State :=
  let rv := s.rv r
  if rv.object ≠ none ∨ rv.popcnt ≠ 0 ∨ rv.inpartpopq ∨ rv.popmap.any (fun w => w ≠ 0#64) then none
  else
    some { s.setRv r { rv with object := some object.id, pindex := first } with
      rvq := fun o => if o = object.id then r :: s.rvq o else s.rvq o }

/-- `vm_reserv_alloc_page`. -/
def allocPage (s : State) (object : Object) (pindex : BitVec 64) (mpred msucc : Option Page)
    (phys : Request → Option Nat) : Option (Option Nat × State) :=
  let index := vmReservIndex object.color pindex
  let first := pindex - BitVec.ofNat 64 index
  if pindex.toNat < index ∨ object.size ≤ pindex then some (none, s)
  else
    match (neighbour s object pindex mpred).or (neighbour s object pindex msucc) with
    | some r =>
      if popmapIsSet (s.rv r).popmap index then some (none, s)
      else (populate s r index).map (fun s => (some (r * npages0 + index), s))
    | none =>
      if leftFits s object first mpred = false then some (none, s)
      else if crowded s object (first + BitVec.ofNat 64 npages0) msucc then some (none, s)
      else if pastEnd object (first + BitVec.ofNat 64 npages0) then some (none, s)
      else
        match phys level0Request with
        | none => some (none, s)
        | some m =>
          let r := vmReservFromPage m
          let s := { s with free := physTake s.free m npages0 }
          if r * npages0 ≠ m then none
          else
            ((newReserv s object r first).bind (fun s => populate s r index)).map
              (fun s => (some (r * npages0 + index), s))

/-- A run of pages meets the address requirements. -/
def fitsAddress (pa size : BitVec 64) (alignment boundary : BitVec 64) : Bool :=
  (pa &&& (alignment - 1#64)) = 0#64 ∧ ((pa ^^^ (pa + size - 1#64)) &&& ~~~(boundary - 1#64)) = 0#64

def ulmax (a b : BitVec 64) : BitVec 64 := if a < b then b else a

/-- The loop that initializes the reservations covered by the run of pages from
    `m` on, with at most `fuel` of them. `n` pages are left to populate and
    `allocpages` of the run are left. -/
def contigLoop (object : Object) : Nat → State → Nat → BitVec 64 → Nat → Nat → Nat → Option State
  | 0, _, _, _, _, _, _ => none
  | fuel + 1, s, m, first, index, n, allocpages =>
    let r := vmReservFromPage m
    if r * npages0 ≠ m then none
    else
      let k := min (npages0 - index) n
      match (newReserv s object r first).bind (fun s => populateRange s r index k) with
      | none => none
      | some s =>
        let allocpages := allocpages - npages0
        if allocpages ≥ npages0 then
          contigLoop object fuel s (m + npages0) (first + BitVec.ofNat 64 npages0) 0 (n - k)
            allocpages
        else some s

/-- The number of pages `vm_reserv_alloc_contig` asks for, if any. -/
def contigPages (s : State) (object : Object) (pindex : BitVec 64) (npages : Nat)
    (msucc : Option Page) : Option Nat :=
  let index := vmReservIndex object.color pindex
  let first := pindex - BitVec.ofNat 64 index
  let minpages := index + npages
  let maxpages := (minpages + (npages0 - 1)) / npages0 * npages0
  let last := first + BitVec.ofNat 64 maxpages
  if crowded s object last msucc ∨ pastEnd object last then
    if maxpages = npages0 then none else some minpages
  else some maxpages

/-- `vm_reserv_alloc_contig`; `req` carries the address requirements. -/
def allocContig (s : State) (object : Object) (pindex : BitVec 64) (req : Request)
    (mpred msucc : Option Page) (phys : Request → Option Nat) : Option (Option Nat × State) :=
  let npages := req.npages
  let index := vmReservIndex object.color pindex
  let first := pindex - BitVec.ofNat 64 index
  let size := BitVec.ofNat 64 (npages * 2 ^ pageShift)
  if npages = 0 then none
  else if pindex.toNat < index ∨ object.size < pindex + BitVec.ofNat 64 npages then some (none, s)
  else if fitsAddress (BitVec.ofNat 64 (index * 2 ^ pageShift)) size req.alignment req.boundary =
      false then some (none, s)
  else
    match (neighbour s object pindex mpred).or (neighbour s object pindex msucc) with
    | some r =>
      let pa := BitVec.ofNat 64 ((r * npages0 + index) * 2 ^ pageShift)
      if index + npages > npages0 then some (none, s)
      else if pa < req.low ∨ req.high < pa + size ∨
          fitsAddress pa size req.alignment req.boundary = false then some (none, s)
      else if (List.range npages).any (fun i => popmapIsSet (s.rv r).popmap (index + i)) then
        some (none, s)
      else (populateRange s r index npages).map (fun s => (some (r * npages0 + index), s))
    | none =>
      if leftFits s object first mpred = false then some (none, s)
      else
        match contigPages s object pindex npages msucc with
        | none => some (none, s)
        | some allocpages =>
          match phys ⟨allocpages, req.low, req.high, ulmax req.alignment level0Size,
              if req.boundary > level0Size then req.boundary else 0#64⟩ with
          | none => some (none, s)
          | some m =>
            (contigLoop object allocpages { s with free := physTake s.free m allocpages } m
              first index npages allocpages).map (fun s => (some (m + index), s))

/-- The next clear bit, from word `i` on with `n` words left, as `nextOne`. -/
def nextZero (popmap : List (BitVec 64)) : Nat → Nat → Nat × Nat
  | 0, i => (i, 0)
  | n + 1, i =>
    if WordMap.ffs (~~~(WordMap.word popmap i)) = 0 then nextZero popmap n (i + 1)
    else (i, WordMap.ffs (~~~(WordMap.word popmap i)))

/-- The pages up to the next used one are enough: the inner `while` loop of
    `vm_reserv_reclaim_contig`, which answers as soon as a word begins far enough. -/
def usedAfter (popmap : List (BitVec 64)) (nextFree : Nat) (size : Nat) :
    Nat → Nat → Option (Nat × Nat)
  | 0, i => some (i, 0)
  | n + 1, i =>
    if (nbpopmap * i - nextFree) * 2 ^ pageShift ≥ size then none
    else if WordMap.ffs (WordMap.word popmap i) = 0 then usedAfter popmap nextFree size n (i + 1)
    else some (i, WordMap.ffs (WordMap.word popmap i))

/-- The search of one reservation from word `i`, bit `hi` on. The outer `none` is
    a search that ran out of fuel, the answer is whether to reclaim. -/
def searchReserv (popmap : List (BitVec 64)) (base : Nat) (req : Request) :
    Nat → Nat → Nat → Option Bool
  | 0, _, _ => none
  | fuel + 1, i, hi =>
    let size := req.npages * 2 ^ pageShift
    let lo := WordMap.ffs (~~~(below hi ||| WordMap.word popmap i))
    let (i, lo) := if lo = 0 then nextZero popmap (npopmap - (i + 1)) (i + 1) else (i, lo)
    if i = npopmap then some false
    else
      let lo := lo - 1
      let nextFree := nbpopmap * i + lo
      let pa := (base + nextFree) * 2 ^ pageShift
      if pa < req.low.toNat then none
      else if pa + size > req.high.toNat then some false
      else if fitsAddress (BitVec.ofNat 64 pa) (BitVec.ofNat 64 size) req.alignment
          req.boundary = false then
        let next := if lo + 1 ≥ nbpopmap then (i + 1, 0) else (i, lo + 1)
        if next.1 < npopmap then searchReserv popmap base req fuel next.1 next.2 else some false
      else
        let hi := WordMap.ffs (WordMap.word popmap i &&& ~~~(below lo))
        match if hi = 0 then usedAfter popmap nextFree size (npopmap - (i + 1)) (i + 1)
            else some (i, hi) with
        | none => some true
        | some (i, hi) =>
          let hi := if i ≠ npopmap then hi - 1 else hi
          if (nbpopmap * i + hi - nextFree) * 2 ^ pageShift ≥ size then some true
          else if i < npopmap then searchReserv popmap base req fuel i hi
          else some false

/-- The search of one reservation of the queue. -/
def reclaimable (s : State) (req : Request) (r : Nat) : Option Bool :=
  let size := req.npages * 2 ^ pageShift
  let pa := r * npages0 * 2 ^ pageShift
  if pa + npages0 * 2 ^ pageShift - size < req.low.toNat then some false
  else if pa + size > req.high.toNat then some false
  else
    let lowIndex := if pa < req.low.toNat then (req.low.toNat + (2 ^ pageShift - 1) - pa) / 2 ^ pageShift
      else 0
    searchReserv (s.rv r).popmap (r * npages0) req (npages0 + 1) (lowIndex / nbpopmap)
      (lowIndex % nbpopmap)

def reclaimContigLoop (s : State) (req : Request) : List Nat → Option (Bool × State)
  | [] => some (false, s)
  | r :: rs =>
    (reclaimable s req r).bind (fun found =>
      if found then (vmReservReclaim s r).map (fun s => (true, s))
      else reclaimContigLoop s req rs)

def reclaimContig (s : State) (req : Request) : Option (Bool × State) :=
  if req.npages > npages0 - 1 then some (false, s) else reclaimContigLoop s req s.partpop

end FreeBSDKern.Reserv
