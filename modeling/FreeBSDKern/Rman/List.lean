import FreeBSDKern.Lib.Run
import FreeBSDKern.Lib.Tailq

/-!
# The Resource Manager

The model of `subr_rman.c`. A manager keeps the regions it was given, cut into
resources, in a list that is meant to be sorted and free of overlaps. A resource
is free or allocated, and an allocated one can be shared: the sharers are on a
list of their own, and only the first of them is on the list of the manager.

The bounds are words of 64 bits and inclusive, so a region may end at the last
word. The sums and differences of the source are taken modulo 2^64 where they
are taken there, since some of them do wrap.

The source runs in two kernels. With `INVARIANTS` its `KASSERT`s stop the
machine, and without they are not compiled. The model is the second kernel.

## Main definitions

* `Resource`, `Rman`: The data, with resources and sharing lists by number.
* `manageRegion`, `adjustResource`, `reserveResourceBound`, `releaseResource`:
  The operations.
* `exec`: An operation on a manager that remembers what it was given to manage.
-/

namespace FreeBSDKern.Rman

open Lib Function

/-- The number of words. -/
def wordSize : Nat := 2 ^ 64

def ulongMax : Nat := wordSize - 1

/-- Sum of two words. -/
def add (a b : Nat) : Nat := (a + b) % wordSize

/-- Difference of two words. -/
def sub (a b : Nat) : Nat := (a + (wordSize - b)) % wordSize

/-- Complement of a word. -/
def compl (a : Nat) : Nat := a ^^^ ulongMax

/-! ## Flags -/

abbrev Flags := BitVec 32

def rfAllocated : Flags := 0x0001#32
def rfActive : Flags := 0x0002#32
def rfShareable : Flags := 0x0004#32
def rfFirstshare : Flags := 0x0020#32
def rfPrefetchable : Flags := 0x0040#32
def rfAlignmentMask : Flags := 0x003F#32 <<< 10

def has (f bit : Flags) : Bool := f &&& bit != 0#32

def rfAlignment (f : Flags) : Nat := ((f &&& rfAlignmentMask) >>> 10).toNat

def shareType (f : Flags) : Flags := f &&& (rfShareable ||| rfPrefetchable)

/-! ## State -/

structure Resource where
  rStart : Nat
  /-- Index of the last entry (inclusive). -/
  rEnd : Nat
  rFlags : Flags
  rSharehead : Option Nat

structure Manager where
  rmStart : Nat
  rmEnd : Nat
  rmList : List Nat
  res : Nat → Resource
  /-- The sharing lists, by the address of their heads. -/
  heads : Nat → List Nat
  /-- Addresses that have never been allocated. -/
  nextRes : Nat
  nextHead : Nat

namespace Manager

/-- Write a resource. -/
def put (m : Manager) (i : Nat) (r : Resource) : Manager :=
  { m with res := update m.res i r }

def setStart (m : Manager) (i x : Nat) : Manager := m.put i { m.res i with rStart := x }

def setEnd (m : Manager) (i x : Nat) : Manager := m.put i { m.res i with rEnd := x }

def setFlags (m : Manager) (i : Nat) (f : Flags) : Manager := m.put i { m.res i with rFlags := f }

/-- A new resource, not on any list yet. -/
def alloc (m : Manager) (r : Resource) : Manager × Nat :=
  ({ m.put m.nextRes r with nextRes := m.nextRes + 1 }, m.nextRes)

def remove (m : Manager) (i : Nat) : Manager := { m with rmList := m.rmList.erase i }

def insertAfter (m : Manager) (p i : Nat) : Manager :=
  { m with rmList := Lib.insertAfter m.rmList p i }

def insertBefore (m : Manager) (p i : Nat) : Manager :=
  { m with rmList := Lib.insertBefore m.rmList p i }

def allocated (m : Manager) (i : Nat) : Bool := has (m.res i).rFlags rfAllocated

@[simp] theorem alloc_snd (m : Manager) (r : Resource) : (m.alloc r).2 = m.nextRes := rfl

@[simp] theorem setStart_nextRes (m : Manager) (i x : Nat) :
    (m.setStart i x).nextRes = m.nextRes := rfl

@[simp] theorem setEnd_nextRes (m : Manager) (i x : Nat) : (m.setEnd i x).nextRes = m.nextRes := rfl

end Manager

/-- `rman_init`, with the bounds the caller has set. -/
def rmanInit (rmStart rmEnd : Nat) : Manager where
  rmStart := rmStart
  rmEnd := if rmStart = 0 ∧ rmEnd = 0 then ulongMax else rmEnd
  rmList := []
  res := fun _ => ⟨0, 0, 0#32, none⟩
  heads := fun _ => []
  nextRes := 0
  nextHead := 0

/-! ## Managing a region -/

inductive Errno where
  | einval
  | enomem
  | ebusy
deriving DecidableEq

/-- The first entry that is not before the new one. -/
def skipBefore (m : Manager) (start : Nat) : Option Nat :=
  m.rmList.find? (fun s => (m.res s).rEnd = ulongMax ∨ add (m.res s).rEnd 1 ≥ start)

/-- The list with the new region at an entry that is not before it. The
    region has been found to overlap neither the entry nor the next one. -/
def mergeRegion (m : Manager) (s start end' : Nat) : Manager :=
  let region : Resource := ⟨start, end', 0#32, none⟩
  -- The next region, where the new one can be merged with it.
  let t := (next? m.rmList s).filter
    (fun t => add end' 1 = (m.res t).rStart ∧ (m.res t).rFlags = 0#32)
  if add (m.res s).rEnd 1 = start ∧ (m.res s).rFlags = 0#32 then
    match t with
    | some t => (m.setEnd s (m.res t).rEnd).remove t
    | none => m.setEnd s end'
  else match t with
    | some t => m.setStart t start
    | none =>
      let (m, r) := m.alloc region
      if (m.res s).rEnd < start then m.insertAfter s r else m.insertBefore s r

/-- `rman_manage_region`. The flag tells whether the memory for the new entry can
    be had. -/
def manageRegion (m : Manager) (start end' : Nat) (nowait : Bool) : Manager × Option Errno :=
  if start < m.rmStart ∨ end' > m.rmEnd then (m, some .einval)
  else if nowait = false then (m, some .enomem)
  else match skipBefore m start with
    | none =>
      let (m, r) := m.alloc ⟨start, end', 0#32, none⟩
      ({ m with rmList := m.rmList ++ [r] }, none)
    | some s =>
      -- Check for any overlap with the current region and with the next.
      if start ≤ (m.res s).rEnd ∧ end' ≥ (m.res s).rStart then (m, some .ebusy)
      else if (next? m.rmList s).any
          (fun t => start ≤ (m.res t).rEnd ∧ end' ≥ (m.res t).rStart) then (m, some .ebusy)
      else (mergeRegion m s start end', none)

/-! ## Adjusting a resource -/

/-- Is there a neighbour, and is it free? -/
def freeNeighbour (m : Manager) (s : Option Nat) : Option Nat := s.filter (fun s => !m.allocated s)

/-- Grow at the start, or shrink where the free neighbour can take what is left. -/
def adjustStart (m : Manager) (r start : Nat) : Manager :=
  match freeNeighbour m (prev? m.rmList r) with
  | none => m
  | some s =>
    if start = (m.res r).rStart then m
    else
      let m := m.setStart r start
      if (m.res s).rStart = start then m.remove s else m.setEnd s (sub start 1)

def adjustEnd (m : Manager) (r end' : Nat) : Manager :=
  match freeNeighbour m (next? m.rmList r) with
  | none => m
  | some t =>
    if end' = (m.res r).rEnd then m
    else
      let m := m.setEnd r end'
      if (m.res t).rEnd = end' then m.remove t else m.setStart t (add end' 1)

/-- Shrink at the start with a new resource for what is left, unless a free
    neighbour has turned up. -/
def shrinkStart (m : Manager) (r start : Nat) : Manager :=
  if start > (m.res r).rStart then
    let left : Resource := ⟨(m.res r).rStart, sub start 1, 0#32, none⟩
    let m := m.setStart r start
    match freeNeighbour m (prev? m.rmList r) with
    | some s => m.setEnd s (sub start 1)
    | none =>
      let (m, i) := m.alloc left
      m.insertBefore r i
  else m

def shrinkEnd (m : Manager) (r end' : Nat) : Manager :=
  if end' < (m.res r).rEnd then
    let left : Resource := ⟨add end' 1, (m.res r).rEnd, 0#32, none⟩
    let m := m.setEnd r end'
    match freeNeighbour m (next? m.rmList r) with
    | some t => m.setStart t (add end' 1)
    | none =>
      let (m, i) := m.alloc left
      m.insertAfter r i
  else m

/-- `rman_adjust_resource`. -/
def adjustResource (m : Manager) (r start end' : Nat) : Manager × Option Errno :=
  let rr := m.res r
  if has rr.rFlags rfShareable then (m, some .einval)
  else if end' < rr.rStart ∨ rr.rEnd < start then (m, some .einval)
  else
    let s := freeNeighbour m (prev? m.rmList r)
    let t := freeNeighbour m (next? m.rmList r)
    -- Growing requires sufficient room in the adjacent region.
    if start < rr.rStart ∧ s.all (fun s => (m.res s).rStart > start) then (m, some .ebusy)
    else if end' > rr.rEnd ∧ t.all (fun t => (m.res t).rEnd < end') then (m, some .ebusy)
    else
      let m := adjustStart m r start
      let m := adjustEnd m r end'
      let m := shrinkStart m r start
      (shrinkEnd m r end', none)

/-! ## Reserving a resource -/

/-- What is asked for. -/
structure Request where
  (start end' count bound : Nat)
  flags : Flags

namespace Request

def amask (q : Request) : Nat := 2 ^ rfAlignment q.flags - 1

/-- If bound is 0, this is 0 too. -/
def bmask (q : Request) : Nat := compl (sub q.bound 1)

def newFlags (q : Request) : Flags := (q.flags &&& ~~~rfFirstshare) ||| rfAllocated

/-- `x + count - 1`. -/
def last (q : Request) (x : Nat) : Nat := sub (add x q.count) 1

/-- One turn of the loop that adjusts the start to alignment and boundary. -/
def adjust (q : Request) (rstart : Nat) : Nat :=
  let y := add rstart q.amask &&& compl q.amask
  if (y ^^^ q.last y) &&& q.bmask ≠ 0 then add y (sub q.bound (y &&& compl q.bmask)) else y

/-- The loop itself, for a region that ends at `rEnd`. There are only so many
    starts, so a loop that has taken more turns never ends. -/
def adjustLoop (q : Request) (rEnd : Nat) : Nat → Nat → Option Nat
  | 0, _ => none
  | fuel + 1, rstart =>
    let y := q.adjust rstart
    if y &&& q.amask ≠ 0 ∧ y < q.end' ∧ y < rEnd then q.adjustLoop rEnd fuel y else some y

end Request

/-- The first pass: a free region with room for the request, and the start in it.
    `none` is a loop that does not end, `some none` is no such region. -/
def findFree (m : Manager) (q : Request) : List Nat → Option (Option (Nat × Nat))
  | [] => some none
  | s :: rest =>
    let r := m.res s
    if r.rStart > sub q.end' (sub q.count 1) then some none
    else if r.rStart > ulongMax - q.amask then some none
    else if m.allocated s then findFree m q rest
    else match q.adjustLoop r.rEnd wordSize (max r.rStart q.start) with
      | none => none
      | some rstart =>
        let rend := min r.rEnd (max (q.last rstart) q.end')
        if rstart > rend then findFree m q rest
        else if add (sub rend rstart) 1 ≥ q.count then some (some (s, rstart))
        else findFree m q rest

/-- Cut the request out of a free region, from `rstart` on. The flags tell whether
    the memory for a first and a second new entry can be had. -/
def carve (m : Manager) (q : Request) (s rstart : Nat) (nowait nowait' : Bool) :
    Manager × Option Nat :=
  let r := m.res s
  if add (sub r.rEnd r.rStart) 1 = q.count then (m.setFlags s q.newFlags, some s)
  else if nowait = false then (m, none)
  else
    let rv : Resource := ⟨rstart, q.last rstart, q.newFlags, none⟩
    if r.rStart < rv.rStart ∧ r.rEnd > rv.rEnd then
      if nowait' = false then (m, none)
      else
        -- We are allocating in the middle.
        let (m, i) := m.alloc rv
        let (m, j) := m.alloc ⟨add rv.rEnd 1, r.rEnd, r.rFlags, none⟩
        (((m.setEnd s (sub rv.rStart 1)).insertAfter s i).insertAfter i j, some i)
    else if r.rStart = rv.rStart then
      let (m, i) := m.alloc rv
      ((m.setStart s (add rv.rEnd 1)).insertBefore s i, some i)
    else
      let (m, i) := m.alloc rv
      ((m.setEnd s (sub rv.rStart 1)).insertAfter s i, some i)

/-- Does an entry match the request exactly? -/
def sharable (m : Manager) (q : Request) (s : Nat) : Bool :=
  let r := m.res s
  shareType r.rFlags = shareType q.flags ∧ r.rStart ≥ q.start ∧
    add (sub r.rEnd r.rStart) 1 = q.count ∧ r.rStart &&& q.amask = 0 ∧
    (r.rStart ^^^ r.rEnd) &&& q.bmask = 0

/-- The second pass: an entry that can be shared. -/
def findShared (m : Manager) (q : Request) (l : List Nat) : Option Nat :=
  (l.takeWhile (fun s => (m.res s).rEnd ≤ q.end')).find? (sharable m q)

/-- Add a sharer to an entry. -/
def share (m : Manager) (q : Request) (s : Nat) (nowait nowait' : Bool) : Manager × Option Nat :=
  if nowait = false then (m, none)
  else
    let r := m.res s
    match r.rSharehead with
    | some h =>
      let (m, i) := m.alloc ⟨r.rStart, r.rEnd, q.newFlags, some h⟩
      ({ m with heads := update m.heads h (i :: m.heads h) }, some i)
    | none =>
      if nowait' = false then (m, none)
      else
        let h := m.nextHead
        let m := m.put s { r with rFlags := r.rFlags ||| rfFirstshare, rSharehead := some h }
        let (m, i) := m.alloc ⟨r.rStart, r.rEnd, q.newFlags, some h⟩
        ({ m with heads := update m.heads h [i, s], nextHead := h + 1 }, some i)

/-- `rman_reserve_resource_bound`. -/
def reserveResourceBound (m : Manager) (q : Request) (nowait nowait' : Bool) :
    Option (Manager × Option Nat) :=
  match m.rmList.dropWhile (fun s => (m.res s).rEnd < q.last q.start) with
  | [] => some (m, none)
  | l => match findFree m q l with
    | none => none
    | some (some (s, rstart)) => some (carve m q s rstart nowait nowait')
    | some none =>
      if has q.flags rfShareable then match findShared m q l with
        | none => some (m, none)
        | some s => some (share m q s nowait nowait')
      else some (m, none)

/-! ## Releasing a resource -/

/-- A neighbour to merge with: it is free and adjacent. -/
def mergePrev (m : Manager) (r : Nat) : Option Nat :=
  (prev? m.rmList r).filter (fun s => !m.allocated s ∧ add (m.res s).rEnd 1 = (m.res r).rStart)

def mergeNext (m : Manager) (r : Nat) : Option Nat :=
  (next? m.rmList r).filter (fun t => !m.allocated t ∧ add (m.res r).rEnd 1 = (m.res t).rStart)

/-- Leave a sharing list. -/
def leave (m : Manager) (r h : Nat) : Manager :=
  { m with heads := update m.heads h ((m.heads h).erase r) }

/-- Another sharer takes the place in the list of the manager. -/
def appoint (m : Manager) (r s : Nat) : Manager :=
  ((m.setFlags s ((m.res s).rFlags ||| rfFirstshare)).insertBefore r s).remove r

/-- The resource is no longer being shared at all. -/
def dissolve (m : Manager) (h s : Nat) : Manager :=
  { m.put s { m.res s with rSharehead := none, rFlags := (m.res s).rFlags &&& ~~~rfFirstshare } with
    heads := update m.heads h [] }

/-- A sharer is released. If a sharing list exists there are at least two of them. -/
def releaseShared (m : Manager) (r h : Nat) : Option Manager :=
  let m := leave m r h
  match m.heads h with
  | [] => none
  | s :: others =>
    let m := if has (m.res r).rFlags rfFirstshare then appoint m r s else m
    some (if others = [] then dissolve m h s else m)

/-- Merge a resource that is not shared with its neighbours, or free it where it is. -/
def releasePlain (m : Manager) (r : Nat) : Manager :=
  match mergePrev m r, mergeNext m r with
  | some s, some t => ((m.setEnd s (m.res t).rEnd).remove r).remove t
  | some s, none => (m.setEnd s (m.res r).rEnd).remove r
  | none, some t => (m.setStart t (m.res r).rStart).remove r
  | none, none => m.setFlags r ((m.res r).rFlags &&& ~~~rfAllocated)

/-- `int_rman_release_resource`. -/
def releaseResource (m : Manager) (r : Nat) : Option Manager :=
  let m := m.setFlags r ((m.res r).rFlags &&& ~~~rfActive)
  match (m.res r).rSharehead with
  | some h => releaseShared m r h
  | none => some (releasePlain m r)

/-! ## Operations -/

inductive Op where
  | manage (start end' : UInt64) (nowait : Bool)
  | adjust (r : Nat) (start end' : UInt64)
  | reserve (start end' count bound : UInt64) (flags : Flags) (nowait nowait' : Bool)
  | release (r : Nat)

/-- A manager, with the regions it was given. -/
structure Session where
  m : Manager
  managed : List (Nat × Nat)

/-- A resource that somebody holds: reserved and not released. -/
def held (m : Manager) (r : Nat) : Bool :=
  m.allocated r && (r ∈ m.rmList || match (m.res r).rSharehead with
    | none => false
    | some h => r ∈ m.heads h)

/-- An operation. Resources are only adjusted and released by who holds them. -/
def Session.exec (s : Session) : Op → Option Session
  | .manage start end' nowait =>
    let (m, err) := manageRegion s.m start.toNat end'.toNat nowait
    some ⟨m, if err = none then s.managed ++ [(start.toNat, end'.toNat)] else s.managed⟩
  | .adjust r start end' =>
    if held s.m r then some { s with m := (adjustResource s.m r start.toNat end'.toNat).1 }
    else none
  | .reserve start end' count bound flags nowait nowait' =>
    (reserveResourceBound s.m ⟨start.toNat, end'.toNat, count.toNat, bound.toNat, flags⟩ nowait
      nowait').map (fun r => { s with m := r.1 })
  | .release r =>
    if held s.m r then (releaseResource s.m r).map (fun m => { s with m := m }) else none

def Session.init (rmStart rmEnd : UInt64) : Session := ⟨rmanInit rmStart.toNat rmEnd.toNat, []⟩

end FreeBSDKern.Rman
