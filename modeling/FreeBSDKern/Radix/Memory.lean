import FreeBSDKern.Radix.Heap
import FreeBSDKern.Radix.Refine

/-!
# Trees in Memory

`Repr node n l own` says that the link `l` leads to a tree in memory that reads as `n`
and takes up exactly the nodes `own`, each of them once. A tree in memory is only read
through nodes that are allocated, so a link to a freed node never occurs in it.

The walks come to a place somewhere inside the trie. `Hole` is such a place: the link
there, the subtree below it, and `plug`, which puts another subtree in its stead.
`hole_fill` is what a write through `parentp` comes to. However the nodes of the subtree
were changed before, if the new link leads to a tree then the whole is in memory what
`plug` says.

## Main definitions

* `Repr`: A tree in memory.
* `Hole`: A place in the trie.

## Theorems

* `repr_frame`: A tree does not see the nodes that are not its own.
* `hole_fill`: Writing a link writes the subtree.
* `removeLoop_spec`: The removal in memory is the removal of the tree.
* `insertLoop_spec`: The walk in memory stops where the walk of the tree does.
-/

namespace FreeBSDKern.Radix

open Function

/-- The link leads to the tree, which takes up the nodes `own`. -/
def Repr (node : Nat → Option RadixNode) : Node → Link → Set Nat → Prop
  | .null, l, own => l = .null ∧ own = ∅
  | .leaf m, l, own => l = .page m ∧ own = ∅
  | .inner rnOwner rnCount rnClev rnChild, l, own =>
    ∃ (a : Nat) (links : Fin 16 → Link) (owns : Fin 16 → Set Nat),
    l = .node a ∧ node a = some ⟨rnOwner, rnCount, rnClev, links⟩ ∧
    (∀ s, Repr node (rnChild s) (links s) (owns s)) ∧ (∀ s, a ∉ owns s) ∧
    (∀ s s' x, x ∈ owns s → x ∈ owns s' → s = s') ∧ own = {x | x = a ∨ ∃ s, x ∈ owns s}

/-- A place in the trie `n` of the nodes `tot`. -/
inductive Hole (t : Rtree) (tot : Set Nat) : Parentp → Link → Node → Set Nat → (Node → Node) → Prop
  | root (n : Node) (h : Repr t.node n t.rtRoot tot) : Hole t tot .root t.rtRoot n tot id
  | child (p : Parentp) (a : Nat) (owner : Pindex) (count clev : Nat) (child : Fin 16 → Node)
      (own : Set Nat) (plug : Node → Node) (links : Fin 16 → Link) (owns : Fin 16 → Set Nat)
      (s : Fin 16) (hole : Hole t tot p (.node a) (.inner owner count clev child) own plug)
      (hnode : t.node a = some ⟨owner, count, clev, links⟩)
      (hrepr : ∀ s, Repr t.node (child s) (links s) (owns s)) (hnot : ∀ s, a ∉ owns s)
      (hdisj : ∀ s s' x, x ∈ owns s → x ∈ owns s' → s = s')
      (hown : own = {x | x = a ∨ ∃ s, x ∈ owns s}) :
      Hole t tot (.child a s) (links s) (child s) (owns s)
        (fun n => plug (.inner owner count clev (update child s n)))

/-- The trie with these nodes allocated. -/
def Rtree.withNodes (t : Rtree) (node : Nat → Option RadixNode) : Rtree := { t with node := node }

theorem repr_frame (n : Node) : ∀ (node node' : Nat → Option RadixNode) (l : Link)
    (own : Set Nat), Repr node n l own → (∀ x ∈ own, node' x = node x) → Repr node' n l own := by
  induction n with
  | null | leaf m => intro node node' l own h _; exact h
  | inner owner count clev child ih =>
    intro node node' l own h hsame
    rcases h with ⟨a, links, owns, hl, ha, hsub, hnot, hdisj, rfl⟩
    refine ⟨a, links, owns, hl, ?_, fun s => ?_, hnot, hdisj, rfl⟩
    · rw [hsame a (Or.inl rfl), ha]
    · exact ih s node node' _ _ (hsub s) (fun x hx => hsame x (Or.inr ⟨s, hx⟩))

theorem repr_alloc (n : Node) : ∀ (node : Nat → Option RadixNode) (l : Link) (own : Set Nat),
    Repr node n l own → ∀ x ∈ own, node x ≠ none := by
  induction n with
  | null | leaf m =>
    intro node l own h x hx
    rw [h.2] at hx
    exact absurd hx (Set.notMem_empty x)
  | inner owner count clev child ih =>
    intro node l own h x hx
    rcases h with ⟨a, links, owns, -, ha, hsub, -, -, rfl⟩
    rcases hx with rfl | ⟨s, hs⟩
    · rw [ha]
      exact Option.some_ne_none _
    · exact ih s node _ _ (hsub s) x hs

/-- A link is null exactly where the tree is. -/
theorem repr_isNull (node : Nat → Option RadixNode) (n : Node) (l : Link) (own : Set Nat)
    (h : Repr node n l own) : n.isNull = decide (l = .null) := by
  cases n with
  | null | leaf m => rw [h.1]; rfl
  | inner owner count clev child =>
    rcases h with ⟨a, links, owns, rfl, -⟩
    rfl

namespace Hole

variable {t : Rtree} {tot : Set Nat} {p : Parentp} {l : Link} {n : Node} {own : Set Nat}
  {plug : Node → Node}

theorem repr (h : Hole t tot p l n own plug) : Repr t.node n l own := by
  cases h with
  | root n h => exact h
  | child p a owner count clev child own plug links owns s hole hnode hrepr _ _ _ =>
    exact hrepr s

theorem sub (h : Hole t tot p l n own plug) : own ⊆ tot := by
  induction h with
  | root n h => exact fun _ hx => hx
  | child p a owner count clev child own plug links owns s _ _ _ _ _ hown ih =>
    intro x hx
    refine ih ?_
    rw [hown]
    exact Or.inr ⟨s, hx⟩

-- The pointer is outside of the subtree it points to, and reads as the link.
theorem parent (h : Hole t tot p l n own plug) :
    (p = .root ∧ l = t.rtRoot) ∨ ∃ a s r, p = .child a s ∧ t.node a = some r ∧
      r.rnChild s = l ∧ a ∈ tot ∧ a ∉ own := by
  cases h with
  | root n h => exact Or.inl ⟨rfl, rfl⟩
  | child p a owner count clev child own plug links owns s hole hnode hrepr hnot hdisj hown =>
    refine Or.inr ⟨a, s, _, rfl, hnode, rfl, hole.sub ?_, hnot s⟩
    rw [hown]
    exact Or.inl rfl

end Hole

theorem store_self (t : Rtree) (a : Nat) (s : Fin 16) (r : RadixNode) (h : t.node a = some r) :
    t.store (.child a s) (r.rnChild s) = some t := by
  have hr : { r with rnChild := update r.rnChild s (r.rnChild s) } = r := by
    rw [update_eq_self]
  rw [Rtree.store, h, Option.map_some, hr, Rtree.setNode, ← h, update_eq_self]

-- Changes elsewhere do not touch what the pointer says.
variable {t : Rtree} {tot own : Set Nat} {p : Parentp} {n : Node} {plug : Node → Node}

theorem hole_store_self {l : Link} (h : Hole t tot p l n own plug) (node' : Nat → Option RadixNode)
    (hframe : ∀ x ∈ tot, x ∉ own → node' x = t.node x) :
    (t.withNodes node').store p l = some (t.withNodes node') := by
  rcases h.parent with ⟨rfl, hl⟩ | ⟨b, s, r, rfl, hb, hl, hbtot, hbown⟩
  · rw [Rtree.store, hl]
    rfl
  rw [← hl]
  refine store_self _ b s r ?_
  rw [← hb]
  exact hframe b hbtot hbown

/-- Writing through `parentp`, after changes to the subtree there and to nodes that were
    not part of the trie, puts the new subtree in place of the old. -/
theorem hole_fill {l : Link} (h : Hole t tot p l n own plug) :
    ∀ (node' : Nat → Option RadixNode) (l' : Link) (n' : Node) (own' : Set Nat),
      Repr node' n' l' own' → (∀ x ∈ own', x ∈ own ∨ x ∉ tot) →
      (∀ x ∈ tot, x ∉ own → node' x = t.node x) →
      ∃ t' tot', (t.withNodes node').store p l' = some t' ∧
        t'.insertInprog = t.insertInprog ∧ t'.trieModified = t.trieModified ∧
        Repr t'.node (plug n') t'.rtRoot tot' ∧ ∀ x ∈ tot', x ∈ tot ∨ x ∈ own' := by
  induction h with
  | root n h =>
    intro node' l' n' own' hrepr' _ _
    exact ⟨_, own', rfl, rfl, rfl, hrepr', fun x hx => Or.inr hx⟩
  | child p a owner count clev child own plug links owns s hole hnode hrepr hnot hdisj hown ih =>
    intro node' l' n' own' hrepr' hfresh hframe
    have hin : ∀ s', owns s' ⊆ tot := by
      intro s' x hx
      refine hole.sub ?_
      rw [hown]
      exact Or.inr ⟨s', hx⟩
    have hatot : a ∈ tot := by
      refine hole.sub ?_
      rw [hown]
      exact Or.inl rfl
    have ha' : node' a = some ⟨owner, count, clev, links⟩ := by
      rw [hframe a hatot (hnot s), hnode]
    have hnew : a ∉ own' := by
      intro ha
      rcases hfresh a ha with h | h
      · exact hnot s h
      · exact h hatot
    have hother : ∀ s', s' ≠ s → ∀ x ∈ owns s', x ∉ own' := by
      intro s' hs' x hx hx'
      rcases hfresh x hx' with h | h
      · exact hs' (hdisj s' s x hx h)
      · exact h (hin s' hx)
    -- The node of the slot, written, is the subtree one level up.
    have hup : Repr (update node' a
        (some ⟨owner, count, clev, update links s l'⟩))
        (.inner owner count clev (update child s n')) (.node a)
        {x | x = a ∨ ∃ s', x ∈ update owns s own' s'} := by
      refine ⟨a, update links s l', update owns s own', rfl,
        update_self _ _ _, fun s' => ?_, fun s' => ?_, fun s₁ s₂ x h₁ h₂ => ?_, rfl⟩
      · by_cases hs' : s' = s
        · rw [hs', update_self, update_self, update_self]
          refine repr_frame n' node' _ l' own' hrepr' (fun x hx => ?_)
          exact update_of_ne (fun hxa => hnew (by rw [← hxa]; exact hx)) _ _
        rw [update_of_ne hs', update_of_ne hs', update_of_ne hs']
        refine repr_frame _ t.node _ _ _ (hrepr s') (fun x hx => ?_)
        rw [update_of_ne (fun hxa => hnot s' (by rw [← hxa]; exact hx))]
        exact hframe x (hin s' hx) (fun hxs => hs' (hdisj s' s x hx hxs))
      · by_cases hs' : s' = s
        · rw [hs', update_self]
          exact hnew
        · rw [update_of_ne hs']
          exact hnot s'
      by_cases hs₁ : s₁ = s
      · by_cases hs₂ : s₂ = s
        · rw [hs₁, hs₂]
        rw [hs₁, update_self] at h₁
        rw [update_of_ne hs₂] at h₂
        exact absurd h₁ (hother s₂ hs₂ x h₂)
      rw [update_of_ne hs₁] at h₁
      by_cases hs₂ : s₂ = s
      · rw [hs₂, update_self] at h₂
        exact absurd h₂ (hother s₁ hs₁ x h₁)
      · rw [update_of_ne hs₂] at h₂
        exact hdisj s₁ s₂ x h₁ h₂
    have hfresh' : ∀ x ∈ {x | x = a ∨ ∃ s', x ∈ update owns s own' s'}, x ∈ own ∨ x ∉ tot := by
      intro x hx
      rcases hx with rfl | ⟨s', hx⟩
      · exact Or.inl (by rw [hown]; exact Or.inl rfl)
      by_cases hs' : s' = s
      · rw [hs', update_self] at hx
        rcases hfresh x hx with h | h
        · exact Or.inl (by rw [hown]; exact Or.inr ⟨s, h⟩)
        · exact Or.inr h
      · rw [update_of_ne hs'] at hx
        exact Or.inl (by rw [hown]; exact Or.inr ⟨s', hx⟩)
    have hframe' : ∀ x ∈ tot, x ∉ own → update node' a
        (some ⟨owner, count, clev, update links s l'⟩) x = t.node x := by
      intro x hx hxown
      rw [hown] at hxown
      rw [update_of_ne (fun hxa => hxown (Or.inl hxa))]
      exact hframe x hx (fun hxs => hxown (Or.inr ⟨s, hxs⟩))
    -- The pointer above reads as this node already.
    have hself := hole_store_self hole _ hframe'
    rcases ih _ _ _ _ hup hfresh' hframe' with ⟨t', tot', hst, hin', hmod', hrep, hsub⟩
    refine ⟨t', tot', ?_, hin', hmod', hrep, fun x hx => ?_⟩
    · rw [← hst, hself]
      simp only [Rtree.store, Rtree.withNodes, ha', Option.map_some, Rtree.setNode]
    rcases hsub x hx with hx | rfl | ⟨s', hx⟩
    · exact Or.inl hx
    · exact Or.inl hatot
    by_cases hs' : s' = s
    · rw [hs', update_self] at hx
      exact Or.inr hx
    · rw [update_of_ne hs'] at hx
      exact Or.inl (hin s' hx)

-- The node at the place is rewritten, and nothing is linked anew.
theorem hole_setNode {a : Nat} (h : Hole t tot p (.node a) n own plug) (r : RadixNode) (n' : Node)
    (own' : Set Nat) (ha : a ∈ own) (hrepr : Repr (t.setNode a r).node n' (.node a) own')
    (hsub : own' ⊆ own) :
    ∃ tot', Repr (t.setNode a r).node (plug n') (t.setNode a r).rtRoot tot' := by
  have hframe : ∀ x ∈ tot, x ∉ own → (t.setNode a r).node x = t.node x := by
    intro x _ hx
    exact update_of_ne (fun hxa => hx (by rw [hxa]; exact ha)) _ _
  rcases hole_fill h _ _ _ _ hrepr (fun x hx => Or.inl (hsub hx)) hframe with
    ⟨t', tot', hst, -, -, hrep, -⟩
  rw [hole_store_self h _ hframe, Option.some.injEq] at hst
  rw [← hst] at hrep
  exact ⟨tot', hrep⟩

/-! ## Insertion -/

/-- The node of an insertion, with the page and what was in its way. -/
def fork (page : Page) (newind : Pindex) (n : Node) : Node :=
  let clev := vmRadixKeydiff newind page.pindex
  .inner (vmRadixTrimkey page.pindex (clev + 1)) 2 clev
    (update (vmRadixAddpage (fun _ => .null) page.pindex clev page)
      (vmRadixSlot newind clev) n)

-- Where the walk of the tree ends, the walk in memory ends.
def StopOk (t : Rtree) (page : Page) (tot : Set Nat) (plug : Node → Node)
    (stop : Option Stop) : Walk → Prop
  | .placed n' => ∃ t', stop = some (.placed t') ∧ t'.insertInprog = t.insertInprog ∧
      t'.trieModified = t.trieModified ∧ ∃ tot', Repr t'.node (plug n') t'.rtRoot tot'
  | .grow n' => ∃ p rnode newind n₂ own₂ plug₂, stop = some (.grow p rnode newind) ∧
      Hole t tot p rnode n₂ own₂ plug₂ ∧ plug n' = plug₂ (fork page newind n₂)
  | .panic => True

-- By induction on the subtree. Its level bounds the nodes that are still to come.
theorem insertLoop_spec (t : Rtree) (tot : Set Nat) (page : Page) (n : Node) :
    ∀ (depth c pfx : Nat) (p : Parentp) (l : Link) (own : Set Nat) (plug : Node → Node),
      Hole t tot p l n own plug → Wf c pfx n → c < depth → n.isNull = false →
      StopOk t page tot plug (t.insertLoop page depth p l) (insertWalk page n) := by
  induction n with
  | null => intro depth c pfx p l own plug _ _ _ hnull; exact absurd hnull (by decide)
  | leaf m =>
    intro depth c pfx p l own plug hole _ hdepth _
    rcases depth with - | depth
    · omega
    rcases hole.repr with ⟨rfl, -⟩
    rw [insertWalk]
    split
    case isTrue => trivial
    case isFalse hne =>
      refine ⟨p, .page m, m.pindex, .leaf m, own, plug, ?_, hole, rfl⟩
      rw [Rtree.insertLoop, if_neg hne]
  | inner owner count clev child ih =>
    intro depth c pfx p l own plug hole hwf hdepth _
    rcases depth with - | depth
    · omega
    rcases hole.repr with ⟨a, links, owns, rfl, ha, hsub, hnot, hdisj, hown⟩
    simp only [Wf] at hwf
    rcases hwf with ⟨hlt, -, -, -, q, -, -, -, hchild⟩
    rw [insertWalk, Rtree.insertLoop, ha, Option.bind_some]
    dsimp only
    cases hbarr : vmRadixKeybarr owner clev page.pindex with
    | true =>
      simp only [if_true]
      exact ⟨p, .node a, owner, _, own, plug, rfl, hole, rfl⟩
    | false =>
      simp only [Bool.false_eq_true, if_false]
      have hnull := repr_isNull t.node _ _ _ (hsub (vmRadixSlot page.pindex clev))
      by_cases hl : links (vmRadixSlot page.pindex clev) = .null
      · rw [if_pos hl, if_pos (by rw [hnull, hl]; rfl)]
        refine ⟨_, rfl, rfl, rfl, ?_⟩
        have hain : a ∈ own := by
          rw [hown]
          exact Or.inl rfl
        refine hole_setNode hole _ _ own hain ?_ (fun _ hx => hx)
        -- The empty slot owned nothing, and the page owns nothing.
        have hempty : owns (vmRadixSlot page.pindex clev) = ∅ := by
          have := hsub (vmRadixSlot page.pindex clev)
          rw [hl] at this
          cases hcs : child (vmRadixSlot page.pindex clev) with
          | null => rw [hcs] at this; exact this.2
          | leaf m =>
            rw [hcs] at this
            cases this.1
          | inner o k c' ch =>
            rw [hcs] at this
            rcases this with ⟨b, _, _, hb, -⟩
            cases hb
        refine ⟨a, _, owns, rfl, update_self _ _ _, fun s => ?_, hnot, hdisj, hown⟩
        rw [vmRadixAddpage]
        by_cases hs : s = vmRadixSlot page.pindex clev
        · rw [hs, update_self, update_self]
          exact ⟨rfl, hempty⟩
        rw [update_of_ne hs, update_of_ne hs]
        refine repr_frame _ t.node _ _ _ (hsub s) (fun x hx => ?_)
        exact update_of_ne (fun hxa => hnot s (by rw [← hxa]; exact hx)) _ _
      have hne : (child (vmRadixSlot page.pindex clev)).isNull = false := by
        rw [hnull]
        exact decide_eq_false hl
      rw [if_neg hl, if_neg (by rw [hne]; decide)]
      have hdown := ih (vmRadixSlot page.pindex clev) depth clev _
        (.child a (vmRadixSlot page.pindex clev)) (links (vmRadixSlot page.pindex clev)) _ _
        (Hole.child p a owner count clev child own plug links owns _ hole ha hsub hnot
          hdisj hown) (hchild _) (by omega) hne
      cases hw : insertWalk page (child (vmRadixSlot page.pindex clev)) with
      | placed n' | grow n' => rw [hw] at hdown; exact hdown
      | panic => trivial

/-! ## Removal -/

/-- The pointer to the node at hand is in its parent, at the slot of the index. -/
def ParentIs (t : Rtree) (index : Pindex) (parent : Option Nat) (p : Parentp) : Prop :=
  (parent = none ∧ p = .root) ∨ ∃ b r, parent = some b ∧ t.node b = some r ∧
    p = .child b (vmRadixSlot index r.rnClev)

theorem firstLink_eq (node : Nat → Option RadixNode) (child : Fin 16 → Node)
    (links : Fin 16 → Link) (owns : Fin 16 → Set Nat)
    (h : ∀ s, Repr node (child s) (links s) (owns s)) :
    Rtree.firstLink links = firstChild child := by
  rw [Rtree.firstLink, firstChild]
  congr 1
  ext s
  rw [repr_isNull node _ _ _ (h s), bne, beq_eq_decide]

-- Out of a parent that is still there, the node is unlinked and then freed.
theorem relink_put {index : Pindex} {parent : Option Nat} {a : Nat}
    (hole : Hole t tot p (.node a) n own plug) (hparent : ParentIs t index parent p) (ha : a ∈ own)
    (r r' : RadixNode) (l' : Link) (hput : r'.rnCount = 0 ∧ ∀ slot, r'.rnChild slot = .null)
    (t' : Rtree) (hst : (t.withNodes (update t.node a none)).store p l' = some t') :
    (((t.setNode a r).relink index parent a l').bind fun t => t.vmRadixNodePut a r') = some t' := by
  rcases hparent with ⟨rfl, rfl⟩ | ⟨b, rb, rfl, hb, rfl⟩
  · simp only [Rtree.relink, Option.bind_some, Rtree.vmRadixNodePut, if_pos hput]
    rw [← hst]
    simp only [Rtree.store, Rtree.withNodes, Rtree.setNode, update_idem]
  rcases hole.parent with ⟨hroot, -⟩ | ⟨b', s, r₂, hp, hb', hl, -, hbown⟩
  · cases hroot
  rw [Parentp.child.injEq] at hp
  rcases hp with ⟨rfl, rfl⟩
  rw [hb, Option.some.injEq] at hb'
  subst hb'
  have hba : b ≠ a := fun h => hbown (by rw [h]; exact ha)
  have hnode : (t.setNode a r).node b = some rb :=
    (update_of_ne hba _ _).trans hb
  have hnode' : (t.withNodes (update t.node a none)).node b = some rb :=
    (update_of_ne hba _ _).trans hb
  rw [Rtree.store, hnode', Option.map_some, Option.some.injEq] at hst
  simp only [Rtree.relink, hnode, Option.bind_some, if_pos hl, Rtree.store, Option.map_some,
    Rtree.vmRadixNodePut, if_pos hput]
  rw [← hst]
  simp only [Rtree.setNode, Rtree.withNodes]
  rw [update_comm hba, update_idem, update_comm hba.symm]

-- By induction on the subtree, as the removal from the tree.
theorem removeLoop_spec (t : Rtree) (tot : Set Nat) (index : Pindex) (m : Page) (n : Node) :
    ∀ (depth c pfx : Nat) (parent : Option Nat) (p : Parentp) (a : Nat) (own : Set Nat)
      (plug : Node → Node), Hole t tot p (.node a) n own plug → ParentIs t index parent p →
      Wf c pfx n → c < depth → vmRadixLookup n index = some m →
      ∃ t' n' tot', t.removeLoop index depth parent (.node a) = some t' ∧
        removeWalk index n = some n' ∧ t'.insertInprog = t.insertInprog ∧
        t'.trieModified = t.trieModified ∧ Repr t'.node (plug n') t'.rtRoot tot' := by
  induction n with
  | null => intro _ _ _ _ _ _ _ _ _ _ _ _ h; simp only [vmRadixLookup, reduceCtorEq] at h
  | leaf m' =>
    intro _ _ _ _ _ a _ _ hole _ _ _ _
    cases hole.repr.1
  | inner owner count clev child ih =>
    intro depth c pfx parent p a own plug hole hparent hwf hdepth hlook
    rcases depth with - | depth
    · omega
    rcases hole.repr with ⟨a', links, owns, ha', hnode, hsub, hnot, hdisj, hown⟩
    rw [Link.node.injEq] at ha'
    subst ha'
    simp only [Wf] at hwf
    rcases hwf with ⟨hlt, -, htwo, hlive, q, -, -, -, hchild⟩
    have hdown := (lookup_inner_some owner count clev child index m hlook).2
    have hain : a ∈ own := by
      rw [hown]
      exact Or.inl rfl
    have hslot := hsub (vmRadixSlot index clev)
    rw [Rtree.removeLoop, hnode, Option.bind_some, removeWalk]
    dsimp only
    cases hcs : child (vmRadixSlot index clev) with
    | null => rw [hcs, vmRadixLookup] at hdown; simp only [reduceCtorEq] at hdown
    | leaf m' =>
      rw [hcs] at hdown hslot
      rcases hslot with ⟨hlink, hempty⟩
      simp only [vmRadixLookup, Option.ite_none_right_eq_some, Option.some.injEq] at hdown
      simp only [hlink, if_pos hdown.1]
      -- The slot cleared, the links still read as the children.
      have hsub' : ∀ node' : Nat → Option RadixNode, (∀ x, x ≠ a → node' x = t.node x) →
          ∀ s, Repr node' (update child (vmRadixSlot index clev) .null s)
            (update links (vmRadixSlot index clev) .null s) (owns s) := by
        intro node' hsame s
        by_cases hs : s = vmRadixSlot index clev
        · rw [hs, update_self, update_self]
          exact ⟨rfl, hempty⟩
        rw [update_of_ne hs, update_of_ne hs]
        exact repr_frame _ t.node _ _ _ (hsub s)
          (fun x hx => hsame x (fun hxa => hnot s (by rw [← hxa]; exact hx)))
      rw [Rtree.takeOut]
      dsimp only
      by_cases hmany : count - 1 > 1
      · rw [if_pos hmany, if_pos hmany]
        rcases hole_setNode hole _ (.inner owner (count - 1) clev
            (update child (vmRadixSlot index clev) .null)) own hain
          ⟨a, _, owns, rfl, update_self _ _ _,
            hsub' _ (fun x hx => update_of_ne hx _ _), hnot, hdisj, hown⟩
          (fun _ hx => hx) with ⟨tot', hrep⟩
        exact ⟨_, _, tot', rfl, rfl, rfl, rfl, hrep⟩
      rw [if_neg hmany, if_neg hmany]
      have hnn : (child (vmRadixSlot index clev)).isNull = false := by rw [hcs]; rfl
      rcases firstChild_of_two child (vmRadixSlot index clev) hnn (by omega) with
        ⟨j, hjs, hjn, hfirst, hothers⟩
      rw [firstLink_eq t.node _ _ owns (hsub' t.node (fun _ _ => rfl)), hfirst,
        Option.bind_some, Option.map_some, update_of_ne hjs, update_of_ne hjs]
      have hkeep : Repr (update t.node a none) (child j) (links j) (owns j) := by
        refine repr_frame _ t.node _ _ _ (hsub j) (fun x hx => ?_)
        exact update_of_ne (fun hxa => hnot j (by rw [← hxa]; exact hx)) _ _
      have hjown : owns j ⊆ own := by
        intro x hx
        rw [hown]
        exact Or.inr ⟨j, hx⟩
      rcases hole_fill hole _ _ _ _ hkeep (fun x hx => Or.inl (hjown hx))
        (fun x _ hx => update_of_ne (fun hxa => hx (by rw [hxa]; exact hain)) _ _)
        with ⟨t', tot', hst, hin, hmod, hrep, -⟩
      refine ⟨t', child j, tot', ?_, rfl, hin, hmod, hrep⟩
      refine relink_put hole hparent hain _ _ (links j) ⟨?_, fun s => ?_⟩ t' hst
      · change count - 1 - 1 = 0
        omega
      -- Only the page and the child that moves up were there.
      change update (update links (vmRadixSlot index clev) .null) j
        .null s = .null
      by_cases hsj : s = j
      · rw [hsj, update_self]
      rw [update_of_ne hsj]
      by_cases hsi : s = vmRadixSlot index clev
      · rw [hsi, update_self]
      rw [update_of_ne hsi]
      have := hsub s
      rw [hothers s hsi hsj] at this
      exact this.1
    | inner o k c' ch =>
      have hhole := Hole.child p a owner count clev child own plug links owns
        (vmRadixSlot index clev) hole hnode hsub hnot hdisj hown
      rw [hcs] at hslot
      rcases hslot with ⟨b, _, _, hlink, -⟩
      rw [hlink] at hhole
      rcases ih (vmRadixSlot index clev) depth clev _ (some a) _ b _ _ hhole
        (Or.inr ⟨a, _, rfl, hnode, rfl⟩) (hchild _) (by omega) hdown with
        ⟨t', n', tot', hloop, hwalk, hin, hmod, hrep⟩
      rw [hcs] at hwalk
      simp only [hlink, hloop, hwalk, Option.map_some]
      exact ⟨t', _, tot', rfl, rfl, hin, hmod, hrep⟩

end FreeBSDKern.Radix
