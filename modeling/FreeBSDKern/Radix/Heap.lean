import FreeBSDKern.Radix.Trie

/-!
# The Page Trie in Memory

An insertion that needs a node asks the allocator for it, and the allocator may run
`vm_radix_remove` on the trie that is just being walked. The walk has two pointers in
hand then, into nodes that may be gone when it gets its answer. None of this shows in
a tree of values, so here the nodes have addresses. `Rtree` is the root, the two flags
and what the node zone has given out. A read or a write through the address of a node
that was freed has no result, nor has a removal of a page that is not there, which is a
panic of the source.

What the allocator does is a script: for each time it is asked, the indices that are
removed meanwhile and the address it answers with. An address that is in use is no
answer of an allocator, and counts as a failure.

## Main definitions

* `Rtree`: The trie and its nodes.
* `Rtree.vmRadixRemove`: Removing a page, and freeing the node it leaves useless.
* `Rtree.vmRadixInsert`: Inserting a page, restarting where the trie was modified.
-/

namespace FreeBSDKern.Radix

open Function

/-- What a child pointer is: `NULL`, a tagged page, or the address of a node. -/
inductive Link where
  | null
  | page (m : Page)
  | node (addr : Nat)
  deriving DecidableEq, Repr

/-- `struct vm_radix_node`. -/
structure RadixNode where
  rnOwner : Pindex
  rnCount : Nat
  rnClev : Nat
  rnChild : Fin 16 → Link

/-- `struct vm_radix`, with the nodes that are allocated. -/
structure Rtree where
  rtRoot : Link
  insertInprog : Bool
  trieModified : Bool
  node : Nat → Option RadixNode

/-- What `parentp` points at. -/
inductive Parentp where
  | root
  | child (addr : Nat) (slot : Fin 16)

/-- What happens while the allocator is asked for a node, and what it answers. -/
structure Attempt where
  removals : List Pindex
  answer : Option Nat

/-- Where the walk of an insertion stops. -/
inductive Stop where
  | placed (t : Rtree)
  | grow (parentp : Parentp) (rnode : Link) (newind : Pindex)

/-- Whether an insertion is over after an allocation. -/
inductive Settled where
  | ret (error : Nat) (t : Rtree)
  | restart (t : Rtree)

/-- How many nodes a walk goes through at most. -/
def walkDepth : Nat := 17

namespace Rtree

def setNode (t : Rtree) (addr : Nat) (rnode : RadixNode) : Rtree :=
  { t with node := update t.node addr (some rnode) }

/-- `*parentp = link`. -/
def store (t : Rtree) (parentp : Parentp) (link : Link) : Option Rtree :=
  match parentp with
  | .root => some { t with rtRoot := link }
  | .child addr slot =>
    (t.node addr).map fun rnode =>
      t.setNode addr { rnode with rnChild := update rnode.rnChild slot link }

/-- `vm_radix_node_put`, of a node that has this to say when it is freed. Its destructor
    asks for no children. -/
def vmRadixNodePut (t : Rtree) (addr : Nat) (rnode : RadixNode) : Option Rtree :=
  if rnode.rnCount = 0 ∧ ∀ slot, rnode.rnChild slot = .null then
    some { t with node := update t.node addr none }
  else none

/-! ## Removal -/

/-- The scan for the child that is left. -/
def firstLink (rnChild : Fin 16 → Link) : Option (Fin 16) :=
  (List.finRange 16).find? (fun i => rnChild i != .null)

/-- The parent of a node that goes gets its last child. -/
def relink (t : Rtree) (index : Pindex) (parent : Option Nat) (addr : Nat) (link : Link) :
    Option Rtree :=
  match parent with
  | none => some { t with rtRoot := link }
  | some parent =>
    (t.node parent).bind fun rnode =>
      let slot := vmRadixSlot index rnode.rnClev
      if rnode.rnChild slot = .node addr then t.store (.child parent slot) link else none

/-- The page at a slot of a node is taken out, and the node with it when it has only one
    child left. -/
def takeOut (t : Rtree) (index : Pindex) (parent : Option Nat) (addr : Nat) (rnode : RadixNode)
    (slot : Fin 16) : Option Rtree :=
  let rnode := { rnode with
    rnChild := update rnode.rnChild slot .null, rnCount := rnode.rnCount - 1 }
  let t := t.setNode addr rnode
  if rnode.rnCount > 1 then some t
  else
    (firstLink rnode.rnChild).bind fun i =>
      (t.relink index parent addr (rnode.rnChild i)).bind fun t =>
        t.vmRadixNodePut addr { rnode with
          rnCount := rnode.rnCount - 1, rnChild := update rnode.rnChild i .null }

/-- The loop of `vm_radix_remove`. -/
def removeLoop (t : Rtree) (index : Pindex) : Nat → Option Nat → Link → Option Rtree
  | depth + 1, parent, .node addr =>
    (t.node addr).bind fun rnode =>
      let slot := vmRadixSlot index rnode.rnClev
      match rnode.rnChild slot with
      | .page m => if m.pindex = index then t.takeOut index parent addr rnode slot else none
      | child => t.removeLoop index depth (some addr) child
  | _, _, _ => none

/-- `vm_radix_remove`. -/
def vmRadixRemove (t : Rtree) (index : Pindex) : Option Rtree :=
  let t := if t.insertInprog then { t with trieModified := true } else t
  match t.rtRoot with
  | .page m => if m.pindex = index then some { t with rtRoot := .null } else none
  | rnode => t.removeLoop index walkDepth none rnode

/-! ## Insertion -/

/-- `vm_radix_node_get`: first what the allocator runs, then its answer. -/
def vmRadixNodeGet (t : Rtree) (attempt : Attempt) (owner : Pindex) (count clevel : Nat) :
    Option (Rtree × Option Nat) :=
  (attempt.removals.foldlM vmRadixRemove t).map fun t =>
    match attempt.answer with
    | some addr =>
      if (t.node addr).isNone then
        (t.setNode addr ⟨owner, count, clevel, fun _ => .null⟩, some addr)
      else (t, none)
    | none => (t, none)

/-- The loop of `vm_radix_insert`, down to an empty slot or to where a node is needed. -/
def insertLoop (t : Rtree) (page : Page) : Nat → Parentp → Link → Option Stop
  | _ + 1, parentp, .page m =>
    if m.pindex = page.pindex then none else some (.grow parentp (.page m) m.pindex)
  | depth + 1, parentp, .node addr =>
    (t.node addr).bind fun rnode =>
      if vmRadixKeybarr rnode.rnOwner rnode.rnClev page.pindex then
        some (.grow parentp (.node addr) rnode.rnOwner)
      else
        let slot := vmRadixSlot page.pindex rnode.rnClev
        if rnode.rnChild slot = .null then
          some (.placed (t.setNode addr { rnode with
            rnCount := rnode.rnCount + 1
            rnChild := update rnode.rnChild slot (.page page) }))
        else t.insertLoop page depth (.child addr slot) (rnode.rnChild slot)
  | _, _, _ => none

/-- The new node takes the place of what was at `parentp`, and gets the page and that. -/
def linkNode (t : Rtree) (page : Page) (clev : Nat) (parentp : Parentp) (rnode : Link)
    (newind : Pindex) (tmp : Nat) : Option Rtree :=
  (t.store parentp (.node tmp)).bind fun t =>
    (t.store (.child tmp (vmRadixSlot page.pindex clev)) (.page page)).bind fun t =>
      t.store (.child tmp (vmRadixSlot newind clev)) rnode

/-- What follows the allocation: the error, or another try with the node given back. -/
def settle (t : Rtree) (page : Page) (clev : Nat) (parentp : Parentp) (rnode : Link)
    (newind : Pindex) : Option Nat → Option Settled
  | none => some (.ret enomem { t with trieModified := false })
  | some tmp =>
    if t.trieModified then
      (t.node tmp).bind fun node =>
        ({ t with trieModified := false }.vmRadixNodePut tmp { node with rnCount := 0 }).map
          Settled.restart
    else (t.linkNode page clev parentp rnode newind tmp).map (Settled.ret 0)

/-- `vm_radix_insert`, with the number of restarts that may still come and of attempts
    that were made before. The allocation and what follows it stand twice in the source,
    for a page and for a node in the way. -/
def insertFrom (script : Nat → Attempt) (page : Page) : Nat → Nat → Rtree →
    Option (Nat × Nat × Rtree)
  | 0, _, _ => none
  | restarts + 1, made, t =>
    if t.rtRoot = .null then some (0, made, { t with rtRoot := .page page })
    else
      (t.insertLoop page walkDepth .root t.rtRoot).bind fun
        | .placed t => some (0, made, t)
        | .grow parentp rnode newind =>
          let clev := vmRadixKeydiff newind page.pindex
          ({ t with insertInprog := true }.vmRadixNodeGet (script made)
              (vmRadixTrimkey page.pindex (clev + 1)) 2 clev).bind fun r =>
            ({ r.1 with insertInprog := false }.settle page clev parentp rnode newind
                r.2).bind fun
              | .ret error t => some (error, made + 1, t)
              | .restart t => insertFrom script page restarts (made + 1) t

/-- `vm_radix_insert`: the error, the number of attempts it made, and the trie. -/
def vmRadixInsert (script : Nat → Attempt) (restarts : Nat) (t : Rtree) (page : Page) :
    Option (Nat × Nat × Rtree) :=
  insertFrom script page restarts 0 t

end Rtree

end FreeBSDKern.Radix
