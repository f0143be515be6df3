import FreeBSDKern.VmMap.Protect

/-!
# Wiring

`vm_map_wire` and `vm_map_unwire` walk a range twice. The first walk cuts the
entries, marks each as being in transition and wires or checks it; where it stops,
at the end of the range or at a failure, the range is taken to end. The second walk
goes over the entries that were marked, settles each for good or takes back what
the first did to it, and gives it up.

The two functions are one pair of walks (`wireWith`) with a different turn and a
different way of settling.

To wire an entry its pages are faulted in with the map unlocked. Nobody else comes
in between here, but `vm_fault` itself may give the entry an object or a copy of
its object (`Touch`), and it locks the map for that, so the walk may find that the
map has changed and look its entry up again.

An entry that is in transition already belongs to another thread. The walk would
wait for it, and the model ends with `none`.

## Main definitions

* `Map.markLoop`, `Map.finishLoop`: The two walks.
* `Map.wire`, `Map.unwire`: `vm_map_wire` and `vm_map_unwire`.
-/

namespace FreeBSDKern.VmMap

open Lib

/-- The flags of `vm_map_wire` and `vm_map_unwire`. -/
structure WireFlags where
  user : Bool := false
  holesOk : Bool := false
  write : Bool := false
  deriving Repr, DecidableEq

/-- The accesses a wired entry must allow. -/
def WireFlags.prot (flags : WireFlags) : Prot := if flags.write then protWrite else protNone

/-- What a fault leaves of the entry it is in, of the objects and of the map's
    timestamp. `splayed` says whether the search could splay the tree. -/
structure Touch where
  splayed : Bool := false
  object : Option Nat
  offset : BitVec 64
  needsCopy : Bool
  cred : Option Nat
  obj : Nat → Obj
  freshObj : Nat
  timestamp : Nat

/-- The state of the first walk: the first entry of the range, or `none` when it has
    to be looked up again, and the timestamp last seen. -/
structure Walk where
  map : Map
  first : Option Nat
  last : Nat

/-- What one turn of the first walk comes to: the code to stop with, if it stops. -/
structure Turn where
  stop : Option Kern
  walk : Walk
  entry : Nat

namespace Map

/-! ## Faulting the pages of an entry in -/

/-- The map after a fault at an address. -/
def faulted (m : Map) (faddr : Nat) (t : Touch) : Map :=
  match m.lookupEntry t.splayed faddr with
  | (m, true, some i) =>
    let e := m.entry i
    { m.setEntry i { e with
        object := t.object, offset := t.offset, cred := t.cred,
        eflags := { e.eflags with needsCopy := t.needsCopy } } with
      obj := t.obj, freshObj := t.freshObj, timestamp := t.timestamp }
  | (m, _, _) => m

/-- A page is entered into the physical map as wired. -/
def wirePage (m : Map) (faddr : Nat) : Map :=
  { m with wired := fun a => m.wired a || (decide (faddr ≤ a) && decide (a < faddr + pageSize)) }

/-- The loop of `vm_map_wire` over the pages of an entry, which returns the address
    it has come to. `none` when `fuel` runs out. -/
def faultLoop (fault : Map → Nat → Kern × Touch) (savedEnd : Nat) :
    Nat → Map → Nat → Option (Kern × Nat × Map)
  | 0, _, _ => none
  | fuel + 1, m, faddr =>
    let (rv, touch) := fault m faddr
    let m := m.faulted faddr touch
    if rv ≠ .success then some (rv, faddr, m)
    else
      let m := m.wirePage faddr
      let faddr := uadd faddr pageSize
      if faddr < savedEnd then faultLoop fault savedEnd fuel m faddr
      else some (rv, faddr, m)

/-- `vm_map_wire_entry_failure`: unwire the pages at the start of an entry and
    remember that it could not be wired. -/
def wireEntryFailure (m : Map) (entry failedAddr : Nat) : Map :=
  let e := m.entry entry
  let m := if e.start < failedAddr then
      { m with wired := fun a => m.wired a && !(decide (e.start ≤ a) && decide (a < failedAddr)) }
    else m
  m.setEntry entry { e with wiredCount := -1 }

/-- The parts of an entry that was cut while the map was unlocked, up to the last
    one. `none` when the list ends before. -/
def wireParts (savedEnd faddr : Nat) (failed : Bool) : Nat → Map → Nat → Option (Map × Nat)
  | 0, _, _ => none
  | fuel + 1, m, entry =>
    if (m.entry entry).stop < savedEnd then
      let m := if failed && decide (faddr < (m.entry entry).stop) then
          m.wireEntryFailure entry faddr
        else m
      match next? m.list entry with
      | none => none
      | some next => wireParts savedEnd faddr failed fuel m next
    else some (m, entry)

/-- The entry is looked up again when the map has changed while it was unlocked. -/
def wireRelock (w : Walk) (savedStart savedEnd faddr : Nat) (failed : Bool) (entry : Nat) :
    Option (Walk × Nat) :=
  if (w.last + 1) % 2 ^ 32 = w.map.timestamp then some (w, entry)
  else
    match w.map.lookupEntry true savedStart with
    | (_, _, none) => none
    | (m, _, some tmp) =>
      let first := if w.first = some entry then some tmp else none
      (wireParts savedEnd faddr failed (m.list.length + 1) m tmp).map fun (m, entry) =>
        ({ w with map := m, first := first }, entry)

/-- An entry that was not wired is wired, with the map unlocked. -/
def wireEntry (fault : Map → Nat → Kern × Touch) (w : Walk) (entry : Nat) : Option Turn :=
  let e := w.map.entry entry
  let m := w.map.setEntry entry { e with wiredCount := e.wiredCount + 1 }
  match faultLoop fault e.stop ((e.stop - e.start) / pageSize + 1) m e.start with
  | none => none
  | some (rv, faddr, m) =>
    (wireRelock { w with map := m.lock } e.start e.stop faddr (rv ≠ .success) entry).map
      fun (w, entry) =>
        let w := { w with last := w.map.timestamp }
        if rv ≠ .success then
          ⟨some rv, { w with map := w.map.wireEntryFailure entry faddr }, entry⟩
        else ⟨none, w, entry⟩

/-! ## The first walk -/

/-- Whether the range goes on behind an entry with a hole. -/
def holeBehind (m : Map) (entry stop : Nat) : Bool :=
  decide ((m.entry entry).stop < stop) && match next? m.list entry with
    | none => true
    | some next => decide ((m.entry entry).stop < (m.entry next).start)

/-- What `vm_map_wire` does to an entry it has marked, up to the check for holes. -/
def wireMarked (fault : Map → Nat → Kern × Touch) (flags : WireFlags) (w : Walk) (entry : Nat) :
    Option Turn :=
  let e := w.map.entry entry
  if e.protection.grants (protRead ||| protExecute) = false ∨
      e.protection &&& flags.prot ≠ flags.prot then
    let m := w.map.setEntry entry { e with eflags := { e.eflags with wireSkipped := true } }
    some ⟨if flags.holesOk then none else some .invalidAddress, { w with map := m }, entry⟩
  else if e.wiredCount = 0 then wireEntry fault w entry
  else if flags.user = false ∨ e.eflags.userWired = false then
    some ⟨none, { w with map := w.map.setEntry entry { e with wiredCount := e.wiredCount + 1 } },
      entry⟩
  else some ⟨none, w, entry⟩

/-- The turn of `vm_map_wire`. -/
def wireTurn (fault : Map → Nat → Kern × Touch) (flags : WireFlags) (stop : Nat) (w : Walk)
    (entry : Nat) : Option Turn :=
  match wireMarked fault flags w entry with
  | some ⟨none, w, entry⟩ =>
    if flags.holesOk = false ∧ w.map.holeBehind entry stop then
      some ⟨some .invalidAddress, w, entry⟩
    else some ⟨none, w, entry⟩
  | t => t

/-- The turn of `vm_map_unwire`. -/
def unwireTurn (flags : WireFlags) (stop : Nat) (w : Walk) (entry : Nat) : Option Turn :=
  if flags.holesOk = false ∧ w.map.holeBehind entry stop then
    some ⟨some .invalidAddress, w, entry⟩
  else if flags.user = false ∧ systemWiredCount (w.map.entry entry) = 0 then
    some ⟨some .invalidArgument, w, entry⟩
  else some ⟨none, w, entry⟩

/-- Mark an entry as being in transition. -/
def markEntry (m : Map) (thread entry : Nat) : Map :=
  let e := m.entry entry
  m.setEntry entry
    { e with eflags := { e.eflags with inTransition := true }, wiringThread := some thread }

/-- The first walk, which returns where the range is to end from now on. `none` when
    it has to wait, or when `fuel` runs out. -/
def markLoop (thread : Nat) (turn : Walk → Nat → Option Turn) (start stop : Nat) :
    Nat → Walk → Option Nat → Option (Kern × Nat × Walk)
  | _, w, none => some (.success, stop, w)
  | 0, _, some _ => none
  | fuel + 1, w, some entry =>
    if (w.map.entry entry).start < stop then
      if (w.map.entry entry).eflags.inTransition then none
      else
        let m := (w.map.clipStart entry start).clipEnd entry stop
        match turn { w with map := m.markEntry thread entry } entry with
        | none => none
        | some ⟨some rv, w, entry⟩ => some (rv, (w.map.entry entry).stop, w)
        | some ⟨none, w, entry⟩ =>
          markLoop thread turn start stop fuel w (next? w.map.list entry)
    else some (.success, stop, w)

/-! ## The second walk -/

/-- Give an entry up. -/
def wireRelease (m : Map) (entry : Nat) : Map :=
  let e := m.entry entry
  m.setEntry entry { e with
    eflags := { e.eflags with inTransition := false, needsWakeup := false }, wiringThread := none }

/-- An entry is wired once less. -/
def wireLess (m : Map) (entry : Nat) : Map :=
  let e := m.entry entry
  if e.wiredCount = 1 then m.entryUnwire entry
  else m.setEntry entry { e with wiredCount := e.wiredCount - 1 }

/-- What `vm_map_wire` does to an entry it has marked before it gives it up: it is
    the user's now, or it is taken back. -/
def wireUndo (user : Bool) (rv : Kern) (m : Map) (entry : Nat) : Map :=
  let e := m.entry entry
  if e.eflags.wireSkipped then
    m.setEntry entry { e with eflags := { e.eflags with wireSkipped := false } }
  else if rv = .success then
    if user then m.setEntry entry { e with eflags := { e.eflags with userWired := true } } else m
  else if e.wiredCount = -1 then m.setEntry entry { e with wiredCount := 0 }
  else if user = false ∨ e.eflags.userWired = false then m.wireLess entry
  else m

/-- What `vm_map_wire` does to an entry it has marked in its second walk. -/
def wireSettle (user : Bool) (rv : Kern) (m : Map) (entry : Nat) : Map :=
  (wireUndo user rv m entry).wireRelease entry

/-- What `vm_map_unwire` does to an entry it has marked before it gives it up. -/
def unwireCount (user : Bool) (rv : Kern) (m : Map) (entry : Nat) : Map :=
  let e := m.entry entry
  if rv = .success ∧ (user = false ∨ e.eflags.userWired) then
    let m :=
      if user then m.setEntry entry { e with eflags := { e.eflags with userWired := false } } else m
    m.wireLess entry
  else m

/-- What `vm_map_unwire` does to an entry it has marked in its second walk. -/
def unwireSettle (user : Bool) (rv : Kern) (m : Map) (entry : Nat) : Map :=
  (unwireCount user rv m entry).wireRelease entry

/-- Whether an entry is one that a thread has marked. -/
def marked (thread : Nat) (e : Entry) : Bool :=
  e.eflags.inTransition && e.wiringThread == some thread

/-- The second walk. `none` when `fuel` runs out. -/
def finishLoop (own : Entry → Bool) (settle : Map → Nat → Map) (stop : Nat) :
    Nat → Map → Option Nat → Option Map
  | _, m, none => some m
  | 0, _, some _ => none
  | fuel + 1, m, some entry =>
    if (m.entry entry).start < stop then
      let m := if own (m.entry entry) then (settle m entry).simplifyEntry entry else m
      finishLoop own settle stop fuel m (next? m.list entry)
    else some m

/-! ## The calls -/

/-- Where the first walk starts: the entry that contains the start of the range or, if
    holes are allowed, the next one. `none` when the call fails. -/
def wireFirst (m : Map) (holesOk : Bool) (start : Nat) : Map × Option (Option Nat) :=
  match m.lookupEntry true start with
  | (m, true, first) => (m, some first)
  | (m, false, prev) => (m, if holesOk then some (m.nextOf prev) else none)

/-- Where the second walk starts: where the first did, which may have to be looked up
    again. -/
def wireResume (w : Walk) (holesOk : Bool) (start : Nat) : Map × Option Nat :=
  match w.first with
  | some first => (w.map, some first)
  | none =>
    match w.map.lookupEntry true start with
    | (m, result, first) => (m, if !result && holesOk then m.nextOf first else first)

/-- Both walks, over a range that has been checked. -/
def wireWalks (m : Map) (thread : Nat) (holesOk : Bool) (turn : Walk → Nat → Option Turn)
    (own : Entry → Bool) (settle : Kern → Map → Nat → Map) (start stop : Nat) :
    Option (Kern × Map) :=
  match m.wireFirst holesOk start with
  | (m, none) => some (.invalidAddress, m)
  | (m, some none) => some (.success, m)
  | (m, some (some i)) =>
    match markLoop thread turn start stop (m.list.length + 1) ⟨m, some i, m.timestamp⟩ (some i) with
    | none => none
    | some (rv, stop, w) =>
      let (m, first) := wireResume w holesOk start
      (finishLoop own (settle rv) stop (m.list.length + 1) m first).map fun m => (rv, m)

/-- What is common to `vm_map_wire` and `vm_map_unwire`. -/
def wireWith (m : Map) (thread : Nat) (holesOk : Bool) (turn : Nat → Walk → Nat → Option Turn)
    (own : Entry → Bool) (settle : Kern → Map → Nat → Map) (start stop : Nat) :
    Option (Kern × Map) :=
  if start = stop then some (.success, m)
  else
    let m := m.lock
    let range := m.rangeCheck start stop
    m.wireWalks thread holesOk (turn range.2) own settle range.1 range.2

/-- `vm_map_wire`. An entry that was skipped is given up whosever it is. -/
def wire (m : Map) (thread : Nat) (fault : Map → Nat → Kern × Touch) (start stop : Nat)
    (flags : WireFlags) : Option (Kern × Map) :=
  m.wireWith thread flags.holesOk (wireTurn fault flags)
    (fun e => e.eflags.wireSkipped || marked thread e) (wireSettle flags.user) start stop

/-- `vm_map_unwire`. -/
def unwire (m : Map) (thread start stop : Nat) (flags : WireFlags) : Option (Kern × Map) :=
  m.wireWith thread flags.holesOk (unwireTurn flags) (marked thread) (unwireSettle flags.user)
    start stop

end Map

end FreeBSDKern.VmMap
