import FreeBSDKern.Lib.Splay
import FreeBSDKern.Lib.Tailq

/-!
# The Address Map

A map of a virtual address space: its entries are kept both as a list in address
order and as a splay tree whose nodes cache the largest gap below them.

The entries live in a heap under the numbers `Map.entry` gives meaning to, and
the list and the tree hold those numbers, so that resizing an entry in place is a
change of the heap and nothing else. The two fields of an entry that belong to
the tree and not to the mapping are kept apart from it: `adj_free` is
`Map.adjFree` and `max_free` is the maximum cached in the tree's node. The header
of the list is `none`.

The kernel is one compiled without `INVARIANTS`: its assertions are not checked,
and what they say is proved of the calls instead. What a call asks of other parts
of the kernel (swap reservation, extending an object) is answered by `Env`.

## Main definitions

* `Entry`, `Obj`, `Map`: The state.
* `entryLink`, `entryUnlink`, `resizeFree`: The list and the tree together.
* `lookupEntry`: The search, with and without the write lock.
* `simplifyEntry`, `clipStart`, `clipEnd`: Merging and splitting entries.
* `mapInsert`, `entryDelete`, `mapDelete`: Adding and removing mappings.
-/

namespace FreeBSDKern.VmMap

open Lib Function

/-- The size of a page. -/
def pageSize : Nat := 4096

/-- Addition of two 64-bit quantities. -/
def uadd (a b : Nat) : Nat := (a + b) % 2 ^ 64

/-- Subtraction of two 64-bit quantities. -/
def usub (a b : Nat) : Nat := (a + (2 ^ 64 - b % 2 ^ 64)) % 2 ^ 64

/-- Protections (`vm_prot_t`). -/
abbrev Prot := BitVec 8

def protNone : Prot := 0
def protRead : Prot := 1
def protWrite : Prot := 2
def protExecute : Prot := 4

/-- Whether a protection grants any of some accesses. -/
def Prot.grants (p q : Prot) : Bool := p &&& q != 0

/-- The advice bits of an entry's flags. -/
inductive Behav where
  | normal
  | sequential
  | random
  | reserved
  deriving Repr, DecidableEq

/-- The flags of an entry (`eflags`). -/
structure Eflags where
  nosync : Bool := false
  isSubMap : Bool := false
  cow : Bool := false
  needsCopy : Bool := false
  nofault : Bool := false
  userWired : Bool := false
  behav : Behav := .normal
  inTransition : Bool := false
  needsWakeup : Bool := false
  nocoredump : Bool := false
  growsDown : Bool := false
  growsUp : Bool := false
  wireSkipped : Bool := false
  vnWritecnt : Bool := false
  deriving Repr, DecidableEq

/-- How a child process inherits an entry. -/
inductive Inherit where
  | share
  | copy
  | none
  deriving Repr, DecidableEq

/-- An entry: a range of addresses and what it maps. `object` is the number of
    the backing object or, with `isSubMap`, of the subordinate map. -/
structure Entry where
  start : Nat
  stop : Nat
  availSsize : Nat := 0
  object : Option Nat := .none
  offset : BitVec 64 := 0
  eflags : Eflags := {}
  protection : Prot
  maxProtection : Prot
  inheritance : Inherit := .copy
  wiredCount : Int := 0
  cred : Option Nat := .none
  wiringThread : Option Nat := .none
  deriving Repr, DecidableEq

/-- Whose pages an object holds. -/
inductive ObjType where
  | default
  | swap
  | vnode
  | device
  | phys
  deriving Repr, DecidableEq

/-- What the map knows of a memory object. `size` is in pages, and `kernel` marks
    the objects behind kernel memory. -/
structure Obj where
  type : ObjType := .default
  refCount : Nat := 1
  shadowCount : Nat := 0
  oneMapping : Bool := false
  noSplit : Bool := false
  kernel : Bool := false
  size : Nat
  cred : Option Nat := none
  charge : Nat := 0
  deriving Repr, DecidableEq

/-- An address map. Numbers from `fresh` on name no entry and numbers from
    `freshObj` on name no object. -/
structure Map where
  entry : Nat → Entry
  adjFree : Nat → Nat
  list : List Nat
  root : SplayTree Nat
  nentries : Nat
  size : Nat
  minOffset : Nat
  maxOffset : Nat
  systemMap : Bool
  kernelPmap : Bool
  timestamp : Nat
  wired : Nat → Bool
  fresh : Nat
  obj : Nat → Obj
  freshObj : Nat

/-- What the rest of the kernel answers during a call. -/
structure Env where
  /-- The credentials of the calling thread. -/
  cred : Nat
  /-- Whether swap space can be reserved. -/
  swapReserve : Nat → Bool
  /-- Whether an object can be extended, and the objects afterwards. -/
  coalesce : (Nat → Obj) → Nat → BitVec 64 → Nat → Nat → Bool → Bool × (Nat → Obj)
  /-- An object after the pages of a range were removed from it. -/
  pageRemove : Obj → Obj

/-- The codes the calls return. -/
inductive Kern where
  | success
  | invalidAddress
  | protectionFailure
  | noSpace
  | invalidArgument
  | failure
  | resourceShortage
  deriving Repr, DecidableEq

/-- Whether an entry is a stack, a submap or being changed: such an entry is never
    merged. -/
def Eflags.unmergeable (f : Eflags) : Bool :=
  f.growsDown || f.growsUp || f.inTransition || f.isSubMap

/-- `vm_map_entry_system_wired_count`: how often the system has wired an entry. -/
def systemWiredCount (e : Entry) : Int :=
  e.wiredCount - if e.eflags.userWired then 1 else 0

/-- Whether two neighbouring entries map one range of one object alike. -/
def mergeable (lower upper : Entry) : Bool :=
  lower.stop == upper.start && lower.object == upper.object
    && (lower.object.isNone
      || lower.offset + BitVec.ofNat 64 (lower.stop - lower.start) == upper.offset)
    && lower.eflags == upper.eflags && lower.protection == upper.protection
    && lower.maxProtection == upper.maxProtection && lower.inheritance == upper.inheritance
    && lower.wiredCount == upper.wiredCount && lower.cred == upper.cred

namespace Map

/-- `vm_map_lock`: whoever sees the timestamp again knows that nothing changed. -/
def lock (m : Map) : Map := { m with timestamp := (m.timestamp + 1) % 2 ^ 32 }

/-- Overwrite an entry. -/
def setEntry (m : Map) (i : Nat) (e : Entry) : Map :=
  { m with entry := update m.entry i e }

@[simp] theorem setEntry_list (m : Map) (i : Nat) (e : Entry) : (m.setEntry i e).list = m.list :=
  rfl

@[simp] theorem setEntry_adjFree (m : Map) (i : Nat) (e : Entry) :
    (m.setEntry i e).adjFree = m.adjFree := rfl

/-- Where an address lies relative to an entry. -/
def side (m : Map) (addr : Nat) (i : Nat) : Ordering :=
  if addr < (m.entry i).start then .lt
  else if (m.entry i).stop ≤ addr then .gt
  else .eq

/-- Where the free space behind an entry ends: at the next entry or at the end of
    the map. -/
def nextStart (m : Map) (i : Nat) : Nat :=
  match next? m.list i with
  | none => m.maxOffset
  | some j => (m.entry j).start

/-- `vm_map_entry_splay`. -/
def entrySplay (m : Map) (addr : Nat) (t : SplayTree Nat) : SplayTree Nat :=
  t.splay m.adjFree (m.side addr)

/-- The tree with a given entry of it at the root. -/
def rooted (m : Map) (i : Nat) : SplayTree Nat :=
  match m.root with
  | .node l j c r => if j = i then .node l j c r else m.entrySplay (m.entry i).start m.root
  | .nil => .nil

/-- `vm_map_entry_link`: insert an entry behind another, or in front of all. -/
def entryLink (m : Map) (afterWhere : Option Nat) (entry : Nat) : Map :=
  match afterWhere with
  | none =>
    let m := { m with nentries := m.nentries + 1, list := entry :: m.list }
    let m := { m with
      adjFree := update m.adjFree entry (m.nextStart entry - (m.entry entry).stop) }
    { m with root := .setMax m.adjFree .nil entry m.root }
  | some after =>
    let t := m.rooted after
    let m := { m with nentries := m.nentries + 1, list := insertAfter m.list after entry }
    let m := { m with
      adjFree := update m.adjFree after ((m.entry entry).start - (m.entry after).stop) }
    let m := { m with
      adjFree := update m.adjFree entry (m.nextStart entry - (m.entry entry).stop) }
    match t with
    | .nil => m
    | .node l _ _ r => { m with root := .setMax m.adjFree (.setMax m.adjFree l after .nil) entry r }

/-- `vm_map_entry_unlink`. -/
def entryUnlink (m : Map) (entry : Nat) : Map :=
  let m' := { m with nentries := m.nentries - 1, list := m.list.erase entry }
  match m.rooted entry with
  | .nil => m'
  | .node l _ _ r =>
    match m.entrySplay (m.entry entry).start l with
    | .nil => { m' with root := r }
    | .node ll root _ _ =>
      let m' := { m' with
        adjFree := update m.adjFree root (m.nextStart entry - (m.entry root).stop) }
      { m' with root := .setMax m'.adjFree ll root r }

/-- `vm_map_entry_resize_free`: recompute the free space behind an entry. -/
def resizeFree (m : Map) (entry : Nat) : Map :=
  let t := m.rooted entry
  let m := { m with
    adjFree := update m.adjFree entry (m.nextStart entry - (m.entry entry).stop) }
  match t with
  | .nil => m
  | .node l _ _ r => { m with root := .setMax m.adjFree l entry r }

/-- `vm_map_lookup_entry`: whether an address is mapped, and the entry that
    contains it or ends at or before it. The tree is splayed when the map is
    locked for writing, or could be. -/
def lookupEntry (m : Map) (mayWrite : Bool) (address : Nat) : Map × Bool × Option Nat :=
  match m.root with
  | .nil => (m, false, none)
  | .node _ cur _ _ =>
    if m.side address cur = .eq then (m, true, some cur)
    else if mayWrite then
      let m := { m with root := m.entrySplay address m.root }
      match m.root with
      | .nil => (m, false, none)
      | .node _ cur _ _ =>
        match m.side address cur with
        | .eq => (m, true, some cur)
        | .gt => (m, false, some cur)
        | .lt => (m, false, prev? m.list cur)
    else
      match m.root.locate (m.side address) with
      | none => (m, false, none)
      | some cur =>
        match m.side address cur with
        | .eq => (m, true, some cur)
        | .gt => (m, false, some cur)
        | .lt => (m, false, prev? m.list cur)

/-- The entry behind another, or the first one. -/
def nextOf (m : Map) : Option Nat → Option Nat
  | none => m.list.head?
  | some i => next? m.list i

/-! ## Objects -/

/-- Overwrite an object. -/
def setObj (m : Map) (o : Nat) (b : Obj) : Map :=
  { m with obj := update m.obj o b }

/-- `vm_object_reference`, which accepts the null pointer. -/
def objectReference (m : Map) : Option Nat → Map
  | none => m
  | some o => m.setObj o { m.obj o with refCount := (m.obj o).refCount + 1 }

/-- The reference count of `vm_object_deallocate`. -/
def objectDeallocate (m : Map) : Option Nat → Map
  | none => m
  | some o => m.setObj o { m.obj o with refCount := (m.obj o).refCount - 1 }

/-- `vm_object_allocate` of an object of the default type. -/
def objectAllocate (m : Map) (b : Obj) : Map :=
  { m with obj := update m.obj m.freshObj b, freshObj := m.freshObj + 1 }

/-! ## Merging and splitting entries -/

/-- Merge the entry before another into it. -/
def mergePrev (m : Map) (entry prev : Nat) : Map :=
  let e := m.entry prev
  let m := m.entryUnlink prev
  let m := m.setEntry entry { m.entry entry with start := e.start, offset := e.offset }
  let m := match prev? m.list entry with
    | none => m
    | some p => m.resizeFree p
  m.objectDeallocate e.object

/-- Merge the entry behind another into it. -/
def mergeNext (m : Map) (entry next : Nat) : Map :=
  let e := m.entry next
  let m := m.entryUnlink next
  let m := m.setEntry entry { m.entry entry with stop := e.stop }
  let m := m.resizeFree entry
  m.objectDeallocate e.object

/-- The first half of `vm_map_simplify_entry`: the entry before. -/
def simplifyPrev (m : Map) (entry : Nat) : Map :=
  match prev? m.list entry with
  | none => m
  | some prev =>
    if mergeable (m.entry prev) (m.entry entry) then m.mergePrev entry prev else m

/-- The second half of `vm_map_simplify_entry`: the entry behind. -/
def simplifyNext (m : Map) (entry : Nat) : Map :=
  match next? m.list entry with
  | none => m
  | some next =>
    if mergeable (m.entry entry) (m.entry next) then m.mergeNext entry next else m

/-- `vm_map_simplify_entry`. -/
def simplifyEntry (m : Map) (entry : Nat) : Map :=
  if (m.entry entry).eflags.unmergeable then m
  else (m.simplifyPrev entry).simplifyNext entry

/-- Before an entry is split: give it an object if it has none, and move its
    charge to an object that is not going to be copied. -/
def clipObject (m : Map) (entry : Nat) : Map :=
  let e := m.entry entry
  match e.object with
  | none =>
    if m.systemMap then m
    else
      let b : Obj := { size := (e.stop - e.start) / pageSize }
      let b := if e.cred.isSome then { b with cred := e.cred, charge := e.stop - e.start } else b
      (m.objectAllocate b).setEntry entry
        { e with object := some m.freshObj, offset := 0, cred := none }
  | some o =>
    if e.eflags.needsCopy = false ∧ e.cred.isSome then
      (m.setObj o { m.obj o with cred := e.cred, charge := e.stop - e.start }).setEntry entry
        { e with cred := none }
    else m

/-- Take a number for a new entry that is a copy of another. -/
def entryCreate (m : Map) (e : Entry) : Map :=
  { m.setEntry m.fresh e with fresh := m.fresh + 1 }

/-- The reference the second half of a split entry takes on the object. -/
def clipReference (m : Map) (e : Entry) : Map :=
  if e.eflags.isSubMap then m else m.objectReference e.object

/-- `_vm_map_clip_start`: split an entry, which keeps the back. -/
def clipStartAt (m : Map) (entry start : Nat) : Map :=
  let m := (m.simplifyEntry entry).clipObject entry
  let e := m.entry entry
  let new := m.fresh
  let m := m.entryCreate { e with stop := start }
  let m := m.setEntry entry
    { e with start := start, offset := e.offset + BitVec.ofNat 64 (start - e.start) }
  let m := m.entryLink (prev? m.list entry) new
  m.clipReference e

/-- `vm_map_clip_start`. -/
def clipStart (m : Map) (entry startaddr : Nat) : Map :=
  if (m.entry entry).start < startaddr then m.clipStartAt entry startaddr else m

/-- `_vm_map_clip_end`: split an entry, which keeps the front. -/
def clipEndAt (m : Map) (entry stop : Nat) : Map :=
  let m := m.clipObject entry
  let e := m.entry entry
  let new := m.fresh
  let m := m.entryCreate
    { e with start := stop, offset := e.offset + BitVec.ofNat 64 (stop - e.start) }
  let m := m.setEntry entry { e with stop := stop }
  let m := m.entryLink (some entry) new
  m.clipReference e

/-- `vm_map_clip_end`. -/
def clipEnd (m : Map) (entry endaddr : Nat) : Map :=
  if endaddr < (m.entry entry).stop then m.clipEndAt entry endaddr else m

/-! ## Adding a mapping -/

/-- The flags `vm_map_insert` takes. -/
structure Cow where
  inheritShare : Bool := false
  copyOnWrite : Bool := false
  nofault : Bool := false
  disableSyncer : Bool := false
  disableCoredump : Bool := false
  vnWritecount : Bool := false
  stackGrowsDown : Bool := false
  stackGrowsUp : Bool := false
  accCharged : Bool := false
  accNoCharge : Bool := false
  deriving Repr, DecidableEq

/-- The flags of the entry to be made. -/
def Cow.protoeflags (cow : Cow) : Eflags :=
  { cow := cow.copyOnWrite, needsCopy := cow.copyOnWrite, nofault := cow.nofault,
    nosync := cow.disableSyncer, nocoredump := cow.disableCoredump,
    growsDown := cow.stackGrowsDown, growsUp := cow.stackGrowsUp, vnWritecnt := cow.vnWritecount }

/-- Whether a new mapping is charged for, or `none` when swap space is short. -/
def insertCred (env : Env) (object : Option Nat) (length : Nat) (prot : Prot) (cow : Cow) :
    Option (Option Nat) :=
  if cow.accNoCharge ∨ cow.nofault then some none
  else if cow.accCharged ∨ (prot.grants protWrite ∧ (cow.copyOnWrite ∨ object = none)) then
    if cow.accCharged = false ∧ env.swapReserve length = false then none
    else some (some env.cred)
  else some none

/-- `vm_object_coalesce`, which accepts the null pointer. -/
def objectCoalesce (m : Map) (env : Env) (o : Option Nat) (offset : BitVec 64)
    (prevSize nextSize : Nat) (reserved : Bool) : Bool × Map :=
  match o with
  | none => (true, m)
  | some o =>
    let (ok, obj) := env.coalesce m.obj o offset prevSize nextSize reserved
    (ok, { m with obj := obj })

/-- Whether the entry before a new one might be extended over it. -/
def extendable (m : Map) (prev : Entry) (cow : Cow) (start : Nat) (cred : Option Nat) : Bool :=
  prev.eflags == cow.protoeflags && !cow.stackGrowsDown && !cow.stackGrowsUp
    && prev.stop == start && prev.wiredCount == 0
    && (prev.cred == cred || match prev.object with
      | none => false
      | some o => (m.obj o).cred == cred)

/-- Make an entry and put it behind another. -/
def insertNew (m : Map) (prev : Option Nat) (e : Entry) : Map :=
  let new := m.fresh
  let m := (m.entryCreate e).entryLink prev new
  { m with size := m.size + (e.stop - e.start) }.simplifyEntry new

/-- The entry `vm_map_insert` makes. -/
def newEntry (object : Option Nat) (offset : BitVec 64) (start stop : Nat) (prot max : Prot)
    (cow : Cow) (cred : Option Nat) : Entry :=
  { start := start, stop := stop, object := object, offset := offset,
    eflags := cow.protoeflags, protection := prot, maxProtection := max,
    inheritance := if cow.inheritShare then .share else .copy, cred := cred }

/-- The end of `vm_map_insert` when the entry before was extended in its object:
    extend it too, or make an entry that shares the object. -/
def insertExtend (m : Map) (prev start stop : Nat) (prot max : Prot) (cow : Cow)
    (cred : Option Nat) : Map :=
  let p := m.entry prev
  let e := newEntry p.object (p.offset + BitVec.ofNat 64 (p.stop - p.start)) start stop prot max
    cow cred
  if p.inheritance = e.inheritance ∧ p.protection = prot ∧ p.maxProtection = max then
    let m := { m with size := m.size + (stop - p.stop) }
    let m := m.setEntry prev { p with stop := stop }
    (m.resizeFree prev).simplifyEntry prev
  else
    let charged := match p.object with
      | none => false
      | some o => (m.obj o).cred.isSome
    let e := if charged && !p.eflags.needsCopy then { e with cred := none } else e
    (m.objectReference p.object).insertNew (some prev) e

/-- The object part of `vm_map_insert`: a new mapping of it may not be its only
    one. -/
def clearOneMapping (m : Map) (o : Nat) : Map :=
  if 1 < (m.obj o).refCount ∨ (m.obj o).shadowCount ≠ 0 then
    m.setObj o { m.obj o with oneMapping := false }
  else m

/-- `vm_map_insert` from the reservation on, when the range is free. -/
def insertFree (m : Map) (env : Env) (prev : Option Nat) (object : Option Nat)
    (offset : BitVec 64) (start stop : Nat) (prot max : Prot) (cow : Cow) (cred : Option Nat) :
    Map :=
  match object, prev with
  | some o, prev =>
    (m.clearOneMapping o).insertNew prev (newEntry object offset start stop prot max cow cred)
  | none, none => m.insertNew none (newEntry none offset start stop prot max cow cred)
  | none, some p =>
    if m.extendable (m.entry p) cow start cred then
      let e := m.entry p
      let (ok, m) := m.objectCoalesce env e.object e.offset (e.stop - e.start) (stop - e.stop)
        (cred.isSome && !cow.copyOnWrite)
      if ok then m.insertExtend p start stop prot max cow cred
      else m.insertNew prev (newEntry none offset start stop prot max cow cred)
    else m.insertNew prev (newEntry none offset start stop prot max cow cred)

/-- Whether the entry behind leaves room up to an address. -/
def roomBefore (m : Map) (next : Option Nat) (stop : Nat) : Bool :=
  match next with
  | none => true
  | some n => stop ≤ (m.entry n).start

/-- `vm_map_insert`. -/
def mapInsert (m : Map) (env : Env) (object : Option Nat) (offset : BitVec 64)
    (start stop : Nat) (prot max : Prot) (cow : Cow) : Kern × Map :=
  if start < m.minOffset ∨ m.maxOffset < stop ∨ stop ≤ start then (.invalidAddress, m)
  else
    match m.lookupEntry true start with
    | (m, true, _) => (.noSpace, m)
    | (m, false, prev) =>
      if m.roomBefore (m.nextOf prev) stop then
        match insertCred env object (stop - start) prot cow with
        | none => (.resourceShortage, m)
        | some cred => (.success, m.insertFree env prev object offset start stop prot max cow cred)
      else (.noSpace, m)

/-! ## Stacks -/

/-- `round_page`. -/
def roundPage (x : Nat) : Nat := uadd x (pageSize - 1) / pageSize * pageSize

/-- Where `vm_map_stack_locked` puts the first part of a stack: at the top of the
    range, at its bottom, or in the middle when the stack grows both ways. -/
def stackBottom (cow : Cow) (addrbos maxSsize initSsize : Nat) : Nat :=
  if cow.stackGrowsDown && !cow.stackGrowsUp then usub (uadd addrbos maxSsize) initSsize
  else if cow.stackGrowsUp && !cow.stackGrowsDown then addrbos
  else roundPage (usub (uadd addrbos (maxSsize / 2)) (initSsize / 2))

/-- `vm_map_stack_locked`: map the first part of a stack and record how far it may
    grow. `none` when the entry made is not the one asked for. -/
def stackLocked (m : Map) (env : Env) (addrbos maxSsize growsize : Nat) (prot max : Prot)
    (cow : Cow) : Option (Kern × Map) :=
  if addrbos < m.minOffset ∨ m.maxOffset < addrbos ∨ uadd addrbos maxSsize < addrbos then
    some (.noSpace, m)
  else
    match m.lookupEntry true addrbos with
    | (m, true, _) => some (.noSpace, m)
    | (m, false, prev) =>
      if m.roomBefore (m.nextOf prev) (uadd addrbos maxSsize) then
        let initSsize := min maxSsize growsize
        let bot := stackBottom cow addrbos maxSsize initSsize
        let top := uadd bot initSsize
        let (rv, m) := m.mapInsert env none 0 bot top prot max cow
        if rv = .success then
          match m.nextOf prev with
          | none => none
          | some new =>
            let e := m.entry new
            if e.stop ≠ top ∨ e.start ≠ bot then none
            else some (rv, m.setEntry new { e with availSsize := maxSsize - initSsize })
        else some (rv, m)
      else some (.noSpace, m)

/-! ## Deleting mappings -/

/-- `OFF_TO_IDX`: the page of an offset. -/
def offToIdx (o : BitVec 64) : Nat := (o >>> 12).toNat

/-- What deleting a mapping does to its object when others refer to it. -/
def deleteObject (env : Env) (e : Entry) (b : Obj) : Obj :=
  let offidxstart := offToIdx e.offset
  let offidxend := offidxstart + (e.stop - e.start) / pageSize
  if b.refCount ≠ 1 ∧ (b.noSplit = false ∧ b.oneMapping = true ∨ b.kernel = true) then
    let b := env.pageRemove b
    if b.size ≤ offidxend ∧ offidxstart < b.size then
      let released := (b.size - offidxstart) * pageSize
      { b with
        size := offidxstart
        charge := if b.cred.isSome then usub b.charge released else b.charge }
    else b
  else b

/-- `vm_map_entry_unwire`. -/
def entryUnwire (m : Map) (entry : Nat) : Map :=
  let e := m.entry entry
  { m.setEntry entry { e with wiredCount := 0 } with
    wired := fun a => m.wired a && !(decide (e.start ≤ a) && decide (a < e.stop)) }

/-- `vm_map_entry_delete`. -/
def entryDelete (m : Map) (env : Env) (entry : Nat) : Map :=
  let e := m.entry entry
  let m := m.entryUnlink entry
  let m := { m with size := m.size - (e.stop - e.start) }
  match e.object with
  | none => m
  | some o =>
    if e.eflags.isSubMap then m.setEntry entry { e with object := none }
    else m.setObj o (deleteObject env e (m.obj o))

/-- `pmap_remove`. -/
def pmapRemove (m : Map) (start stop : Nat) : Map :=
  { m with wired := fun a => m.wired a && !(decide (start ≤ a) && decide (a < stop)) }

/-- Whether deleting an entry has to wait for another thread. -/
def mustWait (m : Map) (e : Entry) : Bool :=
  e.eflags.inTransition || (!m.kernelPmap && systemWiredCount e != 0)

/-- The loop of `vm_map_delete`. `none` when it has to wait, or when `fuel` runs
    out. -/
def deleteLoop (env : Env) (stop : Nat) : Nat → Map → Option Nat → Option Map
  | _, m, none => some m
  | 0, _, some _ => none
  | fuel + 1, m, some entry =>
    if (m.entry entry).start < stop then
      if m.mustWait (m.entry entry) then none
      else
        let m := m.clipEnd entry stop
        let next := next? m.list entry
        let m := if (m.entry entry).wiredCount ≠ 0 then m.entryUnwire entry else m
        let m := m.pmapRemove (m.entry entry).start (m.entry entry).stop
        deleteLoop env stop fuel (m.entryDelete env entry) next
    else some m

/-- Where `vm_map_delete` starts: the entry that contains the first address, cut
    there, or the next one. -/
def deleteFirst (m : Map) (start : Nat) : Map × Option Nat :=
  match m.lookupEntry true start with
  | (m, true, some first) => (m.clipStart first start, some first)
  | (m, _, prev) => (m, m.nextOf prev)

/-- `vm_map_delete`. `none` when it has to wait for another thread. -/
def mapDelete (m : Map) (env : Env) (start stop : Nat) : Option Map :=
  if start = stop then some m
  else
    let (m, entry) := m.deleteFirst start
    deleteLoop env stop (m.list.length + 1) m entry

/-- `_vm_map_init`: an empty map. -/
def init (min max : Nat) (systemMap kernelPmap : Bool) (entry : Nat → Entry) (obj : Nat → Obj)
    (freshObj : Nat) : Map :=
  { entry := entry, adjFree := fun _ => 0, list := [], root := .nil, nentries := 0, size := 0,
    minOffset := min, maxOffset := max, systemMap := systemMap, kernelPmap := kernelPmap,
    timestamp := 0, wired := fun _ => false, fresh := 0, obj := obj, freshObj := freshObj }

end Map

end FreeBSDKern.VmMap
