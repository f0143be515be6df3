import FreeBSDKern.Radix.Key

/-!
# The Page Trie

The path-compressed trie that maps a page index to a resident page. A node at
level `clev` has sixteen children, one per value of digit `clev`, and levels no
two stored keys disagree on are simply missing. Because levels are missing, a
descent that lands on a node has not compared the digits it jumped over; the
node's owner, a key trimmed to what all its descendants share, is the barrier
that does.

The trie is modelled as a tree of values. The source keeps pointers and hangs
a new node by writing through the address of the link it came from; here a
walk returns the subtree that link holds afterwards, and the caller puts it
back. A null child, a page and an interior node are the three things a link
can hold, told apart in the source by a null test and the low pointer bit.

Where the source panics the model returns `none`, and so it does where a loop
would run past the end of the child array. Whether any of this is reachable is
a question for the proofs.

## Main definitions

* `Node`: What a child link holds.
* `vmRadixKeybarr`: The barrier test of an interior node.
* `insertWalk`: The descent of an insertion, up to the node it needs.
* `vmRadixInsert`: Inserting a page, with the allocator's answer.
* `vmRadixLookup`: The page stored at an index.
* `removeWalk`: The descent of a removal and the collapse after it.
* `replaceWalk`: The descent of a replacement.
* `vmRadixReclaimInt`: Freeing every node, slot by slot.
* `Trie`: A trie as its operations see it.
-/

namespace FreeBSDKern.Radix

open Function

/-- A page, as far as the trie reads it: its index in the object, and the
    address that makes it this page and no other. -/
structure Page where
  pindex : Pindex
  addr : Nat
deriving DecidableEq, Repr

/-- What a child link holds: nothing, a page, or an interior node. -/
inductive Node where
  | null
  | leaf (m : Page)
  | inner (rnOwner : Pindex) (rnCount rnClev : Nat) (rnChild : Fin 16 → Node)

/-- The null test on a link. -/
def Node.isNull : Node → Bool
  | .null => true
  | _ => false

/-- `ENOMEM`. -/
def enomem : Nat := 12

/-- True if the key can be seen not to belong under the node. The top level
    has no barrier. -/
def vmRadixKeybarr (rnOwner : Pindex) (rnClev : Nat) (idx : Pindex) : Bool :=
  if rnClev < vmRadixLimit then vmRadixTrimkey idx (rnClev + 1) != rnOwner else false

/-- `vm_radix_addpage`: the page goes in the slot its digit names. -/
def vmRadixAddpage (rnChild : Fin 16 → Node) (index : Pindex) (clev : Nat) (page : Page) :
    Fin 16 → Node :=
  update rnChild (vmRadixSlot index clev) (.leaf page)

/-- Where the descent of an insertion ends. -/
inductive Walk where
  /-- The page went into an empty link. -/
  | placed (n : Node)
  /-- A node has to be allocated; this is the subtree if it is. -/
  | grow (n : Node)
  /-- The key is already present. -/
  | panic

/-- Put the walked subtree back under its parent. -/
def Walk.map (f : Node → Node) : Walk → Walk
  | .placed n => .placed (f n)
  | .grow n => .grow (f n)
  | .panic => .panic

/-- The loop of `vm_radix_insert`, from the link it has reached. -/
def insertWalk (page : Page) : Node → Walk
  | .null => .placed (.leaf page)
  | .leaf m =>
    if m.pindex = page.pindex then .panic
    else
      let clev := vmRadixKeydiff m.pindex page.pindex
      .grow (.inner (vmRadixTrimkey page.pindex (clev + 1)) 2 clev
        (vmRadixAddpage (vmRadixAddpage (fun _ => .null) page.pindex clev page)
          m.pindex clev m))
  | .inner rnOwner rnCount rnClev rnChild =>
    if vmRadixKeybarr rnOwner rnClev page.pindex then
      -- The key belongs outside: a new node goes above this one.
      let clev := vmRadixKeydiff rnOwner page.pindex
      .grow (.inner (vmRadixTrimkey page.pindex (clev + 1)) 2 clev
        (update (vmRadixAddpage (fun _ => .null) page.pindex clev page)
          (vmRadixSlot rnOwner clev) (.inner rnOwner rnCount rnClev rnChild)))
    else
      let slot := vmRadixSlot page.pindex rnClev
      if (rnChild slot).isNull then
        .placed (.inner rnOwner (rnCount + 1) rnClev
          (vmRadixAddpage rnChild page.pindex rnClev page))
      else
        (insertWalk page (rnChild slot)).map
          (fun n => .inner rnOwner rnCount rnClev (update rnChild slot n))

/-- `vm_radix_insert`: the return code and the root afterwards. `nodeGet` is
    whether the node allocator has a node to give. -/
def vmRadixInsert (nodeGet : Bool) (rtRoot : Node) (page : Page) : Option (Nat × Node) :=
  match insertWalk page rtRoot with
  | .placed n => some (0, n)
  | .grow n => if nodeGet then some (0, n) else some (enomem, rtRoot)
  | .panic => none

/-- `vm_radix_lookup`: the page stored at the index, if there is one. -/
def vmRadixLookup : Node → Pindex → Option Page
  | .null, _ => none
  | .leaf m, index => if m.pindex = index then some m else none
  | .inner rnOwner _ rnClev rnChild, index =>
    if vmRadixKeybarr rnOwner rnClev index then none
    else vmRadixLookup (rnChild (vmRadixSlot index rnClev)) index

/-- The first child that is not null, as the scan after a removal finds it. -/
def firstChild (rnChild : Fin 16 → Node) : Option (Fin 16) :=
  (List.finRange 16).find? (fun i => !(rnChild i).isNull)

/-- The loop of `vm_radix_remove`. It never looks at a barrier. A node left
    with one child is freed and the child takes its place. -/
def removeWalk (index : Pindex) : Node → Option Node
  | .null => none
  | .leaf m => if m.pindex = index then some .null else none
  | .inner rnOwner rnCount rnClev rnChild =>
    let slot := vmRadixSlot index rnClev
    match rnChild slot with
    | .leaf m =>
      if m.pindex = index then
        let child := update rnChild slot .null
        if rnCount - 1 > 1 then some (.inner rnOwner (rnCount - 1) rnClev child)
        else (firstChild child).map child
      else none
    | .null => none
    | .inner .. =>
      (removeWalk index (rnChild slot)).map
        (fun n => .inner rnOwner rnCount rnClev (update rnChild slot n))

/-- The loop of `vm_radix_replace`: the page it replaced, and the subtree. -/
def replaceWalk (newpage : Page) : Node → Option (Page × Node)
  | .null => none
  | .leaf m => if m.pindex = newpage.pindex then some (m, .leaf newpage) else none
  | .inner rnOwner rnCount rnClev rnChild =>
    let slot := vmRadixSlot newpage.pindex rnClev
    let put := fun n => Node.inner rnOwner rnCount rnClev (update rnChild slot n)
    match rnChild slot with
    | .leaf m => if m.pindex = newpage.pindex then some (m, put (.leaf newpage)) else none
    | .null => none
    | .inner owner _ clev _ =>
      if vmRadixKeybarr owner clev newpage.pindex then none
      else (replaceWalk newpage (rnChild slot)).map (fun r => (r.1, put r.2))

/-- `vm_radix_reclaim_allnodes_int`: walk the slots until the count runs out,
    freeing what hangs there first. `none` is a count the slots do not match,
    which would send the scan past the array. -/
def vmRadixReclaimInt : Node → Option Unit
  | .null => some ()
  | .leaf _ => some ()
  | .inner _ rnCount _ rnChild =>
    let freed := fun slot => vmRadixReclaimInt (rnChild slot)
    ((List.finRange 16).foldl (fun acc slot => acc.bind (fun count =>
      if count = 0 then some count
      else if (rnChild slot).isNull then some count
      else (freed slot).map (fun _ => count - 1))) (some rnCount)).bind
      (fun count => if count = 0 then some () else none)

/-- `vm_radix_reclaim_allnodes`. -/
def vmRadixReclaimAllnodes (rtRoot : Node) : Option Node :=
  (vmRadixReclaimInt rtRoot).map (fun _ => .null)

/-- How many links of a child array are not null. -/
def liveChildren (rnChild : Fin 16 → Node) : Nat :=
  (Finset.univ.filter (fun s => (rnChild s).isNull = false)).card

/-- The subtrees hanging anywhere below a link, itself included. -/
inductive SubNode : Node → Node → Prop
  | refl (n : Node) : SubNode n n
  | child (rnOwner : Pindex) (rnCount rnClev : Nat) (rnChild : Fin 16 → Node) (s : Fin 16)
      (n : Node) : SubNode (rnChild s) n → SubNode (.inner rnOwner rnCount rnClev rnChild) n

/-- The pages stored under a link. -/
def HasPage : Node → Page → Prop
  | .null, _ => False
  | .leaf m, p => m = p
  | .inner _ _ _ rnChild, p => ∃ s, HasPage (rnChild s) p

/-- An index with its low `n` bits cleared. -/
def clearLow (n : Nat) (index : Pindex) : Pindex := (index >>> n) <<< n

/-- What the header of an interior node promises about its children, its
    owner clause asked of the levels `below` holds of. -/
def NodeOk (below : Nat → Prop) (rnOwner : Pindex) (rnCount rnClev : Nat)
    (rnChild : Fin 16 → Node) : Prop :=
  2 ≤ rnCount ∧ rnCount ≤ vmRadixCount ∧ rnCount = liveChildren rnChild ∧ rnClev ≤ vmRadixLimit ∧
  (∀ s owner count clev child, rnChild s = .inner owner count clev child → clev < rnClev) ∧
  (below rnClev → ∀ m, HasPage (.inner rnOwner rnCount rnClev rnChild) m →
    rnOwner = clearLow ((rnClev + 1) * vmRadixWidth) m.pindex)

/-- Every interior node of the trie keeps its promises, the owner clause
    included wherever `below` holds. -/
def WellFormed (below : Nat → Prop) (root : Node) : Prop :=
  ∀ rnOwner rnCount rnClev rnChild, SubNode root (.inner rnOwner rnCount rnClev rnChild) →
      NodeOk below rnOwner rnCount rnClev rnChild

end FreeBSDKern.Radix
