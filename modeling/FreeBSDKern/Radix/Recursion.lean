import FreeBSDKern.Radix.Memory

/-!
# Insertion under Recursion

`vm_radix_insert` keeps two pointers across an allocation that may remove pages from the
same trie. The flags tell it: a removal while `RT_INSERT_INPROG` is set leaves
`RT_TRIE_MODIFIED` behind, and then the pointers are thrown away with the new node and
the walk starts again from the root. Where the flag is clear nothing was removed, so the
place is still there and may be written (`linkNode_spec`).

`Denotes` says that the trie in memory holds the pages of a map. The removals take their
indices out of the map and the insertion puts its page in, in whatever order the walks
and the allocations fall. Every restart has removed a page, so there is an end to them.

## Main definitions

* `Denotes`: The trie in memory holds the pages of a map.
* `removedBy`: What the first attempts removed.
* `Linked`: The pointers that can be reached.

## Theorems

* `remove_spec`: A removal, and its flag.
* `linkNode_spec`: Linking the new node where nothing changed.
* `insert_under_recursion`: The insertion, whatever the allocator does meanwhile.
-/

namespace FreeBSDKern.Radix

open Function

/-- The trie in memory is in shape and holds exactly the pages of the map. -/
def Rtree.Denotes (t : Rtree) (f : Pindex → Option Page) : Prop :=
  ∃ n tot, Repr t.node n t.rtRoot tot ∧ Wf 16 0 n ∧ ∀ i, vmRadixLookup n i = f i

/-- The links that can be reached from the root. -/
inductive Rtree.Reach (t : Rtree) : Link → Prop
  | root : t.Reach t.rtRoot
  | child (a : Nat) (r : RadixNode) (s : Fin 16) (h : t.Reach (.node a))
      (hnode : t.node a = some r) : t.Reach (r.rnChild s)

/-- The map without some indices. -/
def minus (f : Pindex → Option Page) (l : List Pindex) : Pindex → Option Page :=
  fun i => if i ∈ l then none else f i

/-- The indices that the first attempts removed. -/
def removedBy (script : Nat → Attempt) (made : Nat) : List Pindex :=
  (List.range made).flatMap fun i => (script i).removals

/-- Only pages that are there may be removed, each of them once. -/
def Admitted (f : Pindex → Option Page) (l : List Pindex) : Prop :=
  l.Nodup ∧ ∀ i ∈ l, f i ≠ none

theorem minus_minus (f : Pindex → Option Page) (l l' : List Pindex) :
    minus (minus f l) l' = minus f (l ++ l') := by
  funext i
  simp only [minus, List.mem_append]
  by_cases h : i ∈ l' <;> by_cases h' : i ∈ l <;> simp [h, h']

theorem minus_nil (f : Pindex → Option Page) : minus f [] = f := by
  funext i
  simp [minus]

theorem removedBy_succ (script : Nat → Attempt) (made : Nat) :
    removedBy script (made + 1) = removedBy script made ++ (script made).removals := by
  rw [removedBy, List.range_succ, List.flatMap_append, ← removedBy]
  simp

-- There are not more indices than words.
theorem nodup_length (l : List Pindex) (h : l.Nodup) : l.length ≤ 2 ^ 64 := by
  have hsub : (l.map BitVec.toNat).toFinset ⊆ Finset.range (2 ^ 64) := by
    intro x hx
    rcases List.mem_map.mp (List.mem_toFinset.mp hx) with ⟨i, -, rfl⟩
    exact Finset.mem_range.mpr i.isLt
  have hnodup : (l.map BitVec.toNat).Nodup :=
    h.map (fun a b hab => BitVec.eq_of_toNat_eq hab)
  have hcard := Finset.card_le_card hsub
  rw [List.toFinset_card_of_nodup hnodup, Finset.card_range, List.length_map] at hcard
  exact hcard

variable {t : Rtree} {f : Pindex → Option Page}

/-- Nothing that can be reached is freed. -/
theorem Rtree.Denotes.reach (h : t.Denotes f) (a : Nat) (hreach : t.Reach (.node a)) :
    t.node a ≠ none := by
  rcases h with ⟨n, tot, hrepr, -⟩
  have hall : ∀ l, t.Reach l → ∃ n' own, Repr t.node n' l own := by
    intro l hl
    induction hl with
    | root => exact ⟨n, tot, hrepr⟩
    | child a r s _ hnode ih =>
      rcases ih with ⟨n', own, hr⟩
      cases n' with
      | null | leaf m => cases hr.1
      | inner owner count clev child =>
        rcases hr with ⟨a', links, owns, ha', hnode', hsub, -⟩
        rw [Link.node.injEq] at ha'
        rw [← ha', hnode, Option.some.injEq] at hnode'
        rw [hnode']
        exact ⟨_, _, hsub s⟩
  rcases hall _ hreach with ⟨n', own, hr⟩
  cases n' with
  | null | leaf m => cases hr.1
  | inner owner count clev child =>
    rcases hr with ⟨a', links, owns, ha', hnode', -⟩
    rw [Link.node.injEq] at ha'
    rw [ha', hnode']
    exact Option.some_ne_none _

-- Only the root and the nodes matter.
theorem Rtree.Denotes.congr {t' : Rtree} (h : t.Denotes f) (hroot : t'.rtRoot = t.rtRoot)
    (hnode : t'.node = t.node) : t'.Denotes f := by
  rcases h with ⟨n, tot, hrepr, hwf, hlook⟩
  exact ⟨n, tot, by rw [hroot, hnode]; exact hrepr, hwf, hlook⟩

-- A node that is no part of the trie may come and go.
theorem Rtree.Denotes.outside {t' : Rtree} (h : t.Denotes f) (a : Nat) (ha : t.node a = none)
    (hroot : t'.rtRoot = t.rtRoot) (hnode : ∀ x, x ≠ a → t'.node x = t.node x) : t'.Denotes f := by
  rcases h with ⟨n, tot, hrepr, hwf, hlook⟩
  refine ⟨n, tot, ?_, hwf, hlook⟩
  rw [hroot]
  refine repr_frame n t.node _ _ _ hrepr (fun x hx => hnode x (fun hxa => ?_))
  exact repr_alloc n t.node _ _ hrepr x hx (by rw [hxa]; exact ha)

/-- A removal takes the page out of the map, and reports itself to an insertion that is
    in progress. -/
theorem remove_spec (t : Rtree) (f : Pindex → Option Page) (index : Pindex) (h : t.Denotes f)
    (hin : f index ≠ none) : ∃ t', t.vmRadixRemove index = some t' ∧ t'.Denotes (minus f [index]) ∧
      t'.insertInprog = t.insertInprog ∧ t'.trieModified = (t.trieModified || t.insertInprog) := by
  rcases h with ⟨n, tot, hrepr, hwf, hlook⟩
  rcases Option.ne_none_iff_exists'.mp hin with ⟨m, hm⟩
  rw [← hlook] at hm
  rcases removeWalk_spec index n 16 0 hwf m hm with ⟨n', hwalk, hwf', -, hlook'⟩
  have hmap : ∀ i, vmRadixLookup n' i = minus f [index] i := by
    intro i
    rw [hlook', minus, hlook]
    simp only [List.mem_singleton]
  -- The flag is set before the walk and is no part of it.
  have hflag : ∃ t₁ : Rtree, (if t.insertInprog then { t with trieModified := true } else t) = t₁ ∧
      t₁.rtRoot = t.rtRoot ∧ t₁.node = t.node ∧ t₁.insertInprog = t.insertInprog ∧
      t₁.trieModified = (t.trieModified || t.insertInprog) := by
    by_cases hp : t.insertInprog = true
    · rw [if_pos hp]
      exact ⟨_, rfl, rfl, rfl, rfl, by simp only [hp, Bool.or_true]⟩
    · rw [if_neg hp]
      exact ⟨t, rfl, rfl, rfl, rfl, by simp only [hp, Bool.or_false]⟩
  rcases hflag with ⟨t₁, ht₁, hroot, hnode, hprog, hmod⟩
  rw [Rtree.vmRadixRemove, ht₁]
  rw [← hroot, ← hnode] at hrepr
  cases n with
  | null => simp only [vmRadixLookup, reduceCtorEq] at hm
  | leaf m' =>
    simp only [vmRadixLookup, Option.ite_none_right_eq_some, Option.some.injEq] at hm
    simp only [removeWalk, if_pos hm.1, Option.some.injEq] at hwalk
    rw [hrepr.1]
    simp only [if_pos hm.1]
    exact ⟨_, rfl, ⟨n', ∅, by rw [← hwalk]; exact ⟨rfl, rfl⟩, hwf', hmap⟩, hprog, hmod⟩
  | inner owner count clev child =>
    rcases hrepr with ⟨a, links, owns, ha, hrest⟩
    have hole : Hole t₁ tot .root t₁.rtRoot (.inner owner count clev child) tot id :=
      Hole.root _ ⟨a, links, owns, ha, hrest⟩
    rw [ha] at hole ⊢
    rcases removeLoop_spec t₁ tot index m _ walkDepth 16 0 none .root a tot id hole
      (Or.inl ⟨rfl, rfl⟩) hwf (by decide) hm with
      ⟨t', n'', tot', hloop, hwalk'', hprog', hmod', hrep⟩
    rw [hwalk, Option.some.injEq] at hwalk''
    subst hwalk''
    exact ⟨t', hloop, ⟨n', tot', hrep, hwf', hmap⟩, by rw [hprog', hprog], by rw [hmod', hmod]⟩

-- By induction on the removals.
theorem removals_spec (l : List Pindex) : ∀ (t : Rtree) (f : Pindex → Option Page),
    t.Denotes f → Admitted f l → t.insertInprog = true →
    ∃ t', l.foldlM Rtree.vmRadixRemove t = some t' ∧ t'.Denotes (minus f l) ∧
      t'.insertInprog = true ∧ (l = [] → t' = t) ∧ (l ≠ [] → t'.trieModified = true) := by
  induction l with
  | nil =>
    intro t f h _ hprog
    exact ⟨t, rfl, by rw [minus_nil]; exact h, hprog, fun _ => rfl, fun hne => absurd rfl hne⟩
  | cons i l ih =>
    intro t f h hadm hprog
    rcases remove_spec t f i h (hadm.2 i (List.mem_cons_self ..)) with
      ⟨t₁, hrem, hden, hprog₁, hmod₁⟩
    have hadm₁ : Admitted (minus f [i]) l := by
      refine ⟨(List.nodup_cons.mp hadm.1).2, fun j hj => ?_⟩
      have hji : j ≠ i := fun hji => (List.nodup_cons.mp hadm.1).1 (by rw [← hji]; exact hj)
      simp only [minus, List.mem_singleton, if_neg hji]
      exact hadm.2 j (List.mem_cons_of_mem _ hj)
    rcases ih t₁ _ hden hadm₁ (hprog₁.trans hprog) with ⟨t₂, hfold, hden₂, hprog₂, hnil, hcons⟩
    refine ⟨t₂, ?_, ?_, hprog₂, fun h => absurd h (List.cons_ne_nil i l), fun _ => ?_⟩
    · rw [List.foldlM_cons, hrem]
      exact hfold
    · rw [minus_minus] at hden₂
      exact hden₂
    by_cases hl : l = []
    · rw [hnil hl, hmod₁, hprog, Bool.or_true]
    · exact hcons hl

/-- The new node is linked at a place that is still there. -/
theorem linkNode_spec {tot : Set Nat} {p : Parentp} {rnode : Link} {n : Node} {own : Set Nat}
    {plug : Node → Node} (hole : Hole t tot p rnode n own plug) (page : Page) (newind : Pindex)
    (tmp : Nat) (htmp : t.node tmp = none) (htot : tmp ∉ tot) :
    ∃ t' tot', (t.setNode tmp ⟨vmRadixTrimkey page.pindex
          (vmRadixKeydiff newind page.pindex + 1), 2, vmRadixKeydiff newind page.pindex,
          fun _ => .null⟩).linkNode page (vmRadixKeydiff newind page.pindex) p rnode newind tmp
        = some t' ∧
      t'.insertInprog = t.insertInprog ∧ t'.trieModified = t.trieModified ∧
      Repr t'.node (plug (fork page newind n)) t'.rtRoot tot' := by
  have htown : tmp ∉ own := fun h => htot (hole.sub h)
  let clev := vmRadixKeydiff newind page.pindex
  let r : RadixNode := ⟨vmRadixTrimkey page.pindex (clev + 1), 2, clev,
    update (update (fun _ => .null) (vmRadixSlot page.pindex clev)
      (.page page)) (vmRadixSlot newind clev) rnode⟩
  have hfork : Repr (t.setNode tmp r).node (fork page newind n) (.node tmp)
      {x | x = tmp ∨ ∃ s, x ∈ update (fun _ => (∅ : Set Nat))
        (vmRadixSlot newind clev) own s} := by
    refine ⟨tmp, r.rnChild, _, rfl, update_self _ _ _, fun s => ?_, fun s => ?_,
      fun s₁ s₂ x h₁ h₂ => ?_, rfl⟩
    · simp only [r, clev, vmRadixAddpage]
      by_cases hs : s = vmRadixSlot newind (vmRadixKeydiff newind page.pindex)
      · rw [hs, update_self, update_self, update_self]
        exact repr_frame n t.node _ _ _ hole.repr
          (fun x hx => update_of_ne (fun hxt => htown (by rw [← hxt]; exact hx)) _ _)
      rw [update_of_ne hs, update_of_ne hs, update_of_ne hs]
      by_cases hs' : s = vmRadixSlot page.pindex (vmRadixKeydiff newind page.pindex)
      · rw [hs', update_self, update_self]
        exact ⟨rfl, rfl⟩
      · rw [update_of_ne hs', update_of_ne hs']
        exact ⟨rfl, rfl⟩
    · by_cases hs : s = vmRadixSlot newind clev
      · rw [hs, update_self]
        exact htown
      · rw [update_of_ne hs]
        exact Set.notMem_empty tmp
    have hone : ∀ s, x ∈ update (fun _ => (∅ : Set Nat)) (vmRadixSlot newind clev)
        own s → s = vmRadixSlot newind clev := by
      intro s hx
      by_contra hs
      rw [update_of_ne hs] at hx
      exact Set.notMem_empty x hx
    rw [hone s₁ h₁, hone s₂ h₂]
  have hfresh : ∀ x ∈ {x | x = tmp ∨ ∃ s, x ∈ update (fun _ => (∅ : Set Nat))
      (vmRadixSlot newind clev) own s}, x ∈ own ∨ x ∉ tot := by
    intro x hx
    rcases hx with rfl | ⟨s, hx⟩
    · exact Or.inr htot
    by_cases hs : s = vmRadixSlot newind clev
    · rw [hs, update_self] at hx
      exact Or.inl hx
    · rw [update_of_ne hs] at hx
      exact absurd hx (Set.notMem_empty x)
  rcases hole_fill hole _ _ _ _ hfork hfresh
    (fun x hx _ => update_of_ne (fun hxt => htot (by rw [← hxt]; exact hx)) _ _) with
    ⟨t', tot', hst, hprog, hmod, hrep, -⟩
  refine ⟨t', tot', ?_, hprog, hmod, hrep⟩
  -- Filling the node before it is linked or afterwards makes no difference.
  rw [← hst]
  rcases hole.parent with ⟨rfl, -⟩ | ⟨b, s, rb, rfl, hb, -, -, -⟩
  · simp only [Rtree.linkNode, Rtree.store, Rtree.setNode, Rtree.withNodes, Option.bind_some,
      update_self, Option.map_some, update_idem]
    rfl
  have hbt : b ≠ tmp := by
    intro h
    rw [h, htmp] at hb
    cases hb
  simp only [Rtree.linkNode, Rtree.store, Rtree.setNode, Rtree.withNodes,
    update_of_ne hbt, hb, Option.map_some, Option.bind_some,
    update_self, update_idem, update_comm hbt.symm]
  rfl

/-- The node that is asked for, blank. -/
def blankNode (page : Page) (newind : Pindex) : RadixNode :=
  ⟨vmRadixTrimkey page.pindex (vmRadixKeydiff newind page.pindex + 1), 2,
    vmRadixKeydiff newind page.pindex, fun _ => .null⟩

/-- The allocator has removed what it removed, and has a node that was free or none. -/
theorem nodeGet_spec (t : Rtree) (f : Pindex → Option Page) (attempt : Attempt) (page : Page)
    (newind : Pindex) (h : t.Denotes f) (hadm : Admitted f attempt.removals)
    (hprog : t.insertInprog = true) :
    ∃ t₁, t₁.Denotes (minus f attempt.removals) ∧ (attempt.removals = [] → t₁ = t) ∧
      (attempt.removals ≠ [] → t₁.trieModified = true) ∧
      (t.vmRadixNodeGet attempt (vmRadixTrimkey page.pindex
          (vmRadixKeydiff newind page.pindex + 1)) 2 (vmRadixKeydiff newind page.pindex)
          = some (t₁, none) ∨
        ∃ tmp, t₁.node tmp = none ∧ t.vmRadixNodeGet attempt (vmRadixTrimkey page.pindex
          (vmRadixKeydiff newind page.pindex + 1)) 2 (vmRadixKeydiff newind page.pindex)
          = some (t₁.setNode tmp (blankNode page newind), some tmp)) := by
  rcases removals_spec attempt.removals t f h hadm hprog with ⟨t₁, hfold, hden, -, hnil, hcons⟩
  refine ⟨t₁, hden, hnil, hcons, ?_⟩
  rw [Rtree.vmRadixNodeGet, hfold, Option.map_some]
  cases hans : attempt.answer with
  | none => exact Or.inl rfl
  | some tmp =>
    cases hfree : t₁.node tmp with
    | some r => exact Or.inl (by simp only [hfree, Option.isNone_some, Bool.false_eq_true, if_false])
    | none =>
      refine Or.inr ⟨tmp, hfree, ?_⟩
      simp only [hfree, Option.isNone_none, if_true]
      rfl

/-- What an insertion leaves behind: the map without what was removed, and the page in it
    unless there was no node for it. -/
def InsertOk (script : Nat → Attempt) (f : Pindex → Option Page) (page : Page) :
    Option (Nat × Nat × Rtree) → Prop
  | none => False
  | some (error, made, t') =>
    ((error = 0 ∧ t'.Denotes (update (minus f (removedBy script made)) page.pindex
      (some page))) ∨ (error = enomem ∧ t'.Denotes (minus f (removedBy script made)))) ∧
    t'.insertInprog = false ∧ t'.trieModified = false

-- By induction on the restarts. Each of them has removed a page.
theorem insertFrom_spec (script : Nat → Attempt) (f : Pindex → Option Page) (page : Page)
    (habs : f page.pindex = none) (hadm : ∀ k, Admitted f (removedBy script k)) :
    ∀ (restarts made : Nat) (t : Rtree), t.Denotes (minus f (removedBy script made)) →
      t.insertInprog = false → t.trieModified = false →
      2 ^ 64 < restarts + (removedBy script made).length →
      InsertOk script f page (Rtree.insertFrom script page restarts made t) := by
  intro restarts
  induction restarts with
  | zero =>
    intro made t _ _ _ hleft
    have := nodup_length _ (hadm made).1
    omega
  | succ restarts ih =>
    intro made t hden hprog hmod hleft
    rcases hden with ⟨n, tot, hrepr, hwf, hlook⟩
    have habs' : vmRadixLookup n page.pindex = none := by
      rw [hlook, minus, habs, ite_self]
    rcases insertWalk_spec page n 16 0 hwf (above_limit _) habs' with
      ⟨n', hres, -, hwf', hlook'⟩
    have hput : ∀ i, vmRadixLookup n' i = update (minus f (removedBy script made))
        page.pindex (some page) i := by
      intro i
      rw [hlook', update_eq_ite, hlook]
    rw [Rtree.insertFrom]
    by_cases hroot : t.rtRoot = .null
    · -- An empty trie: the page becomes the root.
      rw [if_pos hroot]
      have hn := repr_isNull t.node n _ _ hrepr
      rw [hroot] at hn
      cases n with
      | leaf m | inner o k c ch => exact absurd hn (by simp [Node.isNull])
      | null =>
        simp only [insertWalk, Walk.result, Option.some.injEq] at hres
        refine ⟨Or.inl ⟨rfl, n', ∅, ?_, hwf', hput⟩, hprog, hmod⟩
        rw [← hres]
        exact ⟨rfl, rfl⟩
    rw [if_neg hroot]
    have hne : n.isNull = false := by
      rw [repr_isNull t.node n _ _ hrepr]
      exact decide_eq_false hroot
    have hstop := insertLoop_spec t tot page n walkDepth 16 0 .root t.rtRoot tot id
      (Hole.root n hrepr) hwf (by decide) hne
    cases hw : insertWalk page n with
    | panic => rw [hw] at hres; exact absurd hres (by simp [Walk.result])
    | placed n'' =>
      rw [hw] at hres hstop
      simp only [Walk.result, Option.some.injEq] at hres
      rcases hstop with ⟨t', hloop, hprog', hmod', tot', hrep⟩
      rw [hloop]
      subst hres
      exact ⟨Or.inl ⟨rfl, n'', tot', hrep, hwf', hput⟩, hprog'.trans hprog, hmod'.trans hmod⟩
    | grow n'' =>
      rw [hw] at hres hstop
      simp only [Walk.result, Option.some.injEq] at hres
      subst hres
      rcases hstop with ⟨p, rnode, newind, n₂, own₂, plug₂, hloop, hole, hplug⟩
      -- What the allocator removes is taken from the map.
      have hadm₁ : Admitted (minus f (removedBy script made)) (script made).removals := by
        have h := hadm (made + 1)
        rw [removedBy_succ] at h
        refine ⟨(List.nodup_append.mp h.1).2.1, fun i hi => ?_⟩
        have hnot : i ∉ removedBy script made :=
          fun hi' => (List.nodup_append.mp h.1).2.2 i hi' i hi rfl
        rw [minus, if_neg hnot]
        exact h.2 i (List.mem_append_right _ hi)
      rcases nodeGet_spec { t with insertInprog := true } _ (script made) page newind
        ⟨n, tot, hrepr, hwf, hlook⟩ hadm₁ rfl with ⟨t₁, hden₁, hnil, hcons, hget⟩
      rw [minus_minus, ← removedBy_succ] at hden₁
      rw [hloop, Option.bind_some]
      dsimp only
      rcases hget with hget | ⟨tmp, hfree, hget⟩
      · rw [hget]
        exact ⟨Or.inr ⟨rfl, hden₁.congr rfl rfl⟩, rfl, rfl⟩
      rw [hget, Option.bind_some, Rtree.settle]
      by_cases hrem : (script made).removals = []
      · -- Nothing was removed: the place the walk found is still there.
        rw [hnil hrem] at hfree ⊢
        have htot : tmp ∉ tot := fun h => repr_alloc n t.node _ _ hrepr tmp h hfree
        rcases linkNode_spec hole page newind tmp hfree htot with
          ⟨t', tot', hlink, hprog', hmod', hrep⟩
        have hback : { ({ t with insertInprog := true }.setNode tmp
            (blankNode page newind)) with insertInprog := false }
            = t.setNode tmp (blankNode page newind) := by
          rw [Rtree.setNode, Rtree.setNode, ← hprog]
        have hclear : ¬ (t.setNode tmp (blankNode page newind)).trieModified = true := by
          rw [Rtree.setNode, hmod]
          decide
        rw [hback, if_neg hclear, blankNode, hlink, Option.map_some, Option.bind_some]
        refine ⟨Or.inl ⟨rfl, n'', tot', ?_, hwf', ?_⟩, hprog'.trans hprog, hmod'.trans hmod⟩
        · rw [← hplug] at hrep
          exact hrep
        · intro i
          rw [hput, removedBy_succ, hrem, List.append_nil]
      -- Something was: the node goes back, and the walk starts anew.
      have hset : (t₁.setNode tmp (blankNode page newind)).trieModified = true :=
        hcons hrem
      rw [if_pos hset]
      have hnode : (t₁.setNode tmp (blankNode page newind)).node tmp
          = some (blankNode page newind) := update_self _ _ _
      rw [hnode, Option.bind_some, Rtree.vmRadixNodePut, if_pos ⟨rfl, fun _ => rfl⟩,
        Option.map_some, Option.bind_some]
      refine ih (made + 1) _ (hden₁.outside tmp hfree rfl (fun x hx => ?_)) rfl rfl ?_
      · simp only [Rtree.setNode]
        rw [update_of_ne hx, update_of_ne hx]
      rw [removedBy_succ, List.length_append]
      have := List.length_pos_of_ne_nil hrem
      omega

/-- Whatever pages of the trie are removed inside the allocations, the insertion comes to
    an end, and the trie holds what it held before without those pages, and the new page
    exactly if no error is returned. Both flags are clear again, and nothing that can be
    reached is freed. -/
theorem insert_under_recursion (t : Rtree) (f : Pindex → Option Page) (page : Page)
    (script : Nat → Attempt) (restarts : Nat) (h : t.Denotes f)
    (hprog : t.insertInprog = false) (hmod : t.trieModified = false)
    (habs : f page.pindex = none) (hadm : ∀ k, Admitted f (removedBy script k))
    (hrestarts : 2 ^ 64 < restarts) :
    ∃ error made t', t.vmRadixInsert script restarts page = some (error, made, t') ∧
      ((error = 0 ∧ t'.Denotes (update (minus f (removedBy script made)) page.pindex
          (some page))) ∨
        (error = enomem ∧ t'.Denotes (minus f (removedBy script made)))) ∧
      t'.insertInprog = false ∧ t'.trieModified = false ∧
      ∀ a, t'.Reach (.node a) → t'.node a ≠ none := by
  have hok := insertFrom_spec script f page habs hadm restarts 0 t
    (by rw [removedBy, List.range_zero, List.flatMap_nil, minus_nil]; exact h) hprog hmod
    (by omega)
  rw [Rtree.vmRadixInsert]
  cases hr : Rtree.insertFrom script page restarts 0 t with
  | none => rw [hr] at hok; cases hok
  | some r =>
    rcases r with ⟨error, made, t'⟩
    rw [hr] at hok
    rcases hok with ⟨hden, hprog', hmod'⟩
    refine ⟨error, made, t', rfl, hden, hprog', hmod', fun a ha => ?_⟩
    rcases hden with ⟨-, hden⟩ | ⟨-, hden⟩
    · exact hden.reach a ha
    · exact hden.reach a ha

/-- `twoPages`, with its node at address 0. -/
def smallTrie : Rtree where
  rtRoot := .node 0
  insertInprog := false
  trieModified := false
  node a :=
    if a = 0 then
      some ⟨0#64, 2, 0, update (update (fun _ => .null) 5 (.page ⟨5#64, 200⟩))
        3 (.page ⟨3#64, 100⟩)⟩
    else none

theorem smallTrie_denotes : smallTrie.Denotes (vmRadixLookup twoPages) := by
  refine ⟨twoPages, {x | x = 0 ∨ ∃ s : Fin 16, x ∈ (fun _ => (∅ : Set Nat)) s}, ?_, wf_twoPages,
    fun _ => rfl⟩
  refine ⟨0, _, fun _ => ∅, rfl, rfl, fun s => ?_, fun _ => Set.notMem_empty _,
    fun _ _ x hx => absurd hx (Set.notMem_empty x), rfl⟩
  change Repr _ (update (update (fun _ => Node.null) 5 (.leaf ⟨5#64, 200⟩)) 3
    (.leaf ⟨3#64, 100⟩) s) _ _
  by_cases h3 : s = 3
  · rw [h3, update_self, update_self]
    exact ⟨rfl, rfl⟩
  rw [update_of_ne h3, update_of_ne h3]
  by_cases h5 : s = 5
  · rw [h5, update_self, update_self]
    exact ⟨rfl, rfl⟩
  · rw [update_of_ne h5, update_of_ne h5]
    exact ⟨rfl, rfl⟩

/-- Page 3 is removed while a node is asked for, and then there is a node. -/
def removeThree : Nat → Attempt
  | 0 => ⟨[3#64], some 1⟩
  | _ => ⟨[], some 0⟩

theorem removedBy_removeThree (k : Nat) : removedBy removeThree (k + 1) = [3#64] := by
  induction k with
  | zero => rfl
  | succ k ih =>
    rw [removedBy_succ, ih]
    rfl

theorem insert_under_recursion_restarted :
    ∃ error made t', smallTrie.vmRadixInsert removeThree (2 ^ 64 + 1) ⟨256#64, 300⟩
        = some (error, made, t') ∧
      ((error = 0 ∧ t'.Denotes (update (minus (vmRadixLookup twoPages)
          (removedBy removeThree made)) 256#64 (some ⟨256#64, 300⟩))) ∨
        (error = enomem ∧ t'.Denotes (minus (vmRadixLookup twoPages)
          (removedBy removeThree made)))) ∧
      t'.insertInprog = false ∧ t'.trieModified = false ∧
      ∀ a, t'.Reach (.node a) → t'.node a ≠ none := by
  refine insert_under_recursion smallTrie (vmRadixLookup twoPages) ⟨256#64, 300⟩ removeThree
    (2 ^ 64 + 1) smallTrie_denotes rfl rfl (by decide) (fun k => ?_) (by decide)
  cases k with
  | zero => exact ⟨List.nodup_nil, fun i hi => absurd hi (List.not_mem_nil)⟩
  | succ k =>
    rw [removedBy_removeThree]
    refine ⟨List.nodup_singleton _, fun i hi => ?_⟩
    rw [List.mem_singleton.mp hi]
    decide

example : ((smallTrie.vmRadixInsert removeThree 2 ⟨256#64, 300⟩).map
    fun r => (r.1, r.2.1, r.2.2.rtRoot)) = some (0, 2, .node 0) := by decide

end FreeBSDKern.Radix
