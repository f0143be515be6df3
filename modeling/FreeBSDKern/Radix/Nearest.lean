import FreeBSDKern.Radix.Trie

/-!
# Ordered Lookups

The two lookups that take the nearest page at or beyond an index, upwards or
downwards. Both go down the trie towards the index and remember the nodes they
came through on a stack. Where nothing is left in a node they go back up, and move
the search key to the edge of the next slot.

The two loops are the same loop, apart from the direction in which slots and keys
are walked. `Direction` names what differs, and each lookup is the common loop at
its own expressions. A `Search` is what the loop holds when it is about to compute
a slot.

The model answers `none` where the source would be wrong about itself: an addition
or a subtraction that wraps (`addIndex`, `subIndex`), a push on a full stack or from
a node without levels below, a barrier that still turns the key away after it was
moved. The loop has no bound in the source, so it takes the number of its rounds
here.

## Main definitions

* `Direction`: What tells the two lookups apart.
* `scan`: The inner loop over the slots beyond a slot.
* `ascend`: Popping the stack.
* `vmRadixLookupGe`, `vmRadixLookupLe`: The two lookups.
-/

namespace FreeBSDKern.Radix

/-- `VM_RADIX_UNITLEVEL`. -/
def vmRadixUnitlevel (level : Nat) : Pindex := 1#64 <<< (level * vmRadixWidth)

/-- An addition that has to fit the word. -/
def addIndex (a b : Pindex) : Option Pindex :=
  if a.toNat + b.toNat < 2 ^ 64 then some (a + b) else none

/-- A subtraction that has to stay above zero. -/
def subIndex (a b : Pindex) : Option Pindex :=
  if b.toNat ≤ a.toNat then some (a - b) else none

/-- What tells the two lookups apart. `reaches` is the test of a page, `enter` the key
    to go on with in a node whose barrier turned the key away (or to ascend),
    `resume` the key to go on with in a node that was popped. The rest is the walk
    over the slots of a node: the last slot, how many are left, where the key starts
    and how it moves from one slot to the next. -/
structure Direction where
  reaches : Pindex → Pindex → Bool
  enter : Pindex → Nat → Pindex → Option (Option Pindex)
  resume : Pindex → Nat → Option Pindex
  lastSlot : Fin 16
  left : Fin 16 → Nat
  nextSlot : Fin 16 → Fin 16
  align : Pindex → Nat → Pindex
  advance : Pindex → Nat → Option Pindex

/-- What a node holds at or beyond the key. -/
inductive Edge where
  | page (m : Page)
  | node (index : Pindex) (child : Node)
  | none (index : Pindex)

/-- The loop of a lookup, about to compute a slot. -/
structure Search where
  index : Pindex
  stack : List Node
  rnode : Node

/-- What a round of the loop ends with. -/
inductive Round where
  | done (m : Option Page)
  | next (s : Search)

/-- The inner loop over the slots that are left beyond `slot`. -/
def scan (d : Direction) (rnClev : Nat) (rnChild : Fin 16 → Node) :
    Nat → Fin 16 → Pindex → Option Edge
  | 0, _, index => some (.none index)
  | left + 1, slot, index =>
    (d.advance index rnClev).bind fun index =>
      match rnChild (d.nextSlot slot) with
      | .leaf m =>
        if d.reaches m.pindex index then some (.page m)
        else scan d rnClev rnChild left (d.nextSlot slot) index
      | .null => scan d rnClev rnChild left (d.nextSlot slot) index
      | .inner rnOwner rnCount clev child =>
        some (.node index (.inner rnOwner rnCount clev child))

/-- The slots beyond the one the key names, if there are any. -/
def scanRest (d : Direction) (rnClev : Nat) (rnChild : Fin 16 → Node) (slot : Fin 16)
    (index : Pindex) : Option Edge :=
  if slot = d.lastSlot then some (.none index)
  else scan d rnClev rnChild (d.left slot) slot (d.align index rnClev)

/-- The slot the key names, and those beyond it. -/
def findEdge (d : Direction) (rnClev : Nat) (rnChild : Fin 16 → Node) (index : Pindex) :
    Option Edge :=
  match rnChild (vmRadixSlot index rnClev) with
  | .leaf m =>
    if d.reaches m.pindex index then some (.page m)
    else scanRest d rnClev rnChild (vmRadixSlot index rnClev) index
  | .null => scanRest d rnClev rnChild (vmRadixSlot index rnClev) index
  | .inner rnOwner rnCount clev child => some (.node index (.inner rnOwner rnCount clev child))

/-- Pop nodes until one has slots left, and move the key to the next of them. -/
def ascend (d : Direction) (index : Pindex) : List Node → Option Round
  | [] => some (.done none)
  | .inner rnOwner rnCount rnClev rnChild :: stack =>
    if vmRadixSlot index rnClev = d.lastSlot then ascend d index stack
    else
      (d.resume index rnClev).bind fun index =>
        if vmRadixKeybarr rnOwner rnClev index then none
        else some (.next ⟨index, stack, .inner rnOwner rnCount rnClev rnChild⟩)
  | .leaf _ :: _ => none
  | .null :: _ => none

/-- The head of the loop: the barrier of the node it has come to. -/
def enter (d : Direction) (index : Pindex) (stack : List Node) : Node → Option Round
  | .inner rnOwner rnCount rnClev rnChild =>
    if vmRadixKeybarr rnOwner rnClev index then
      (d.enter rnOwner rnClev index).bind fun
        | none => ascend d index stack
        | some index =>
          if vmRadixKeybarr rnOwner rnClev index then none
          else some (.next ⟨index, stack, .inner rnOwner rnCount rnClev rnChild⟩)
    else some (.next ⟨index, stack, .inner rnOwner rnCount rnClev rnChild⟩)
  | .leaf _ => none
  | .null => none

/-- A round of the loop, from the slot to where it comes round again. -/
def loopRound (d : Direction) (s : Search) : Option Round :=
  match s.rnode with
  | .inner _ _ rnClev rnChild =>
    (findEdge d rnClev rnChild s.index).bind fun
      | .page m => some (.done (some m))
      | .node index child =>
        if 0 < rnClev ∧ s.stack.length < vmRadixLimit then
          enter d index (s.rnode :: s.stack) child
        else none
      | .none index => ascend d index s.stack
  | .leaf _ => none
  | .null => none

/-- So many rounds of the loop, or fewer. -/
def searchFrom (d : Direction) : Nat → Option Round → Option (Option Page)
  | _, none => none
  | _, some (.done m) => some m
  | 0, some (.next _) => none
  | rounds + 1, some (.next s) => searchFrom d rounds (loopRound d s)

/-- A lookup in the given direction. -/
def lookupNearest (d : Direction) (rounds : Nat) (rtRoot : Node) (index : Pindex) :
    Option (Option Page) :=
  match rtRoot with
  | .null => some none
  | .leaf m => some (if d.reaches m.pindex index then some m else none)
  | .inner .. => searchFrom d rounds (enter d index [] rtRoot)

/-- Upwards: the expressions of `vm_radix_lookup_ge`. -/
def upwards : Direction where
  reaches pindex index := index ≤ pindex
  enter rnOwner _ index := if rnOwner < index then some none else some (some rnOwner)
  resume index rnClev := addIndex (vmRadixTrimkey index rnClev) (vmRadixUnitlevel rnClev)
  lastSlot := 15
  left slot := 15 - slot.val
  nextSlot slot := slot + 1
  align index rnClev := vmRadixTrimkey index rnClev
  advance index rnClev := addIndex index (vmRadixUnitlevel rnClev)

/-- Downwards: the expressions of `vm_radix_lookup_le`. -/
def downwards : Direction where
  reaches pindex index := pindex ≤ index
  enter rnOwner rnClev index :=
    if rnOwner < index then
      ((addIndex rnOwner (16#64 * vmRadixUnitlevel rnClev)).bind (subIndex · 1#64)).map some
    else some none
  resume index rnClev := subIndex (vmRadixTrimkey index rnClev) 1#64
  lastSlot := 0
  left slot := slot.val
  nextSlot slot := slot - 1
  align index rnClev := index ||| (vmRadixUnitlevel rnClev - 1#64)
  advance index rnClev := subIndex index (vmRadixUnitlevel rnClev)

/-- `vm_radix_lookup_ge`. -/
def vmRadixLookupGe (rounds : Nat) (rtRoot : Node) (index : Pindex) : Option (Option Page) :=
  lookupNearest upwards rounds rtRoot index

/-- `vm_radix_lookup_le`. -/
def vmRadixLookupLe (rounds : Nat) (rtRoot : Node) (index : Pindex) : Option (Option Page) :=
  lookupNearest downwards rounds rtRoot index

end FreeBSDKern.Radix
