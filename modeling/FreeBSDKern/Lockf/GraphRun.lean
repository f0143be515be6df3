import FreeBSDKern.Lib.Run
import FreeBSDKern.Lockf.GraphOrder

/-!
# Runs of the Owner Graph

The remaining operations on the owner graph, and what holds after any sequence
of them. Removing an edge and adding a vertex cannot disturb the order. Freeing
a vertex moves every later one down by one place, which `closeGap_spec`
describes for the array and the order numbers at once.

## Main definitions

* `GraphOp`: The operations, with the memory the allocator hands out.
* `GraphOp.Valid`: What the lock code keeps to when it calls them.

## Theorems

* `closeGap_spec`: The loop that closes the gap of a freed vertex.
* `exec_ordered`: Every operation is completed and keeps the invariant.
* `owner_graph_ordered`: What holds after any sequence of operations.
-/

namespace FreeBSDKern.Lockf

open Function

/-- `graph_remove_edge` of an existing edge. -/
theorem graphRemoveEdge_spec {g : OwnerGraph} (h : Ordered g) (x y : Nat) (hx : x ∈ g.owners)
    (hedge : Edge g x y) : ∃ g', graphRemoveEdge g x y = some g' ∧ Ordered g' := by
  rcases find_edge h.linked x y hx with ⟨hnone, hsome⟩
  unfold graphRemoveEdge
  rcases hfind : (g.vOutedges x).find? (fun e => g.eTo e == y) with _ | e
  · exact absurd hedge (hnone.mp hfind)
  rcases hsome e hfind with ⟨hin, hf, ht⟩
  by_cases hlast : update g.eRefs e (g.eRefs e - 1) e = 0
  · simp only [if_pos hlast]
    rcases linked_iff.mp h.linked with ⟨ho, hi, hsingle, hnodup, hrefs⟩
    have hmem : ∀ d, d ∈ g.edges.erase e ↔ d ≠ e ∧ d ∈ g.edges := fun d => hnodup.mem_erase_iff
    refine ⟨_, rfl, linked_iff.mpr ⟨ho.unlink hin hf hnodup, hi.unlink hin ht hnodup,
      fun d hd d' hd' => hsingle d ((hmem d).mp hd).2 d' ((hmem d').mp hd').2, hnodup.erase e,
      fun d hd => ?_⟩, { h.numbered with }, fun d hd => h.ascending d ((hmem d).mp hd).2, h.gens,
      h.genLt, h.space⟩
    simp only
    rw [update_of_ne ((hmem d).mp hd).1]
    exact hrefs d ((hmem d).mp hd).2
  simp only [if_neg hlast]
  refine ⟨_, rfl, h.recount _ (fun d hd => ?_)⟩
  by_cases hd' : d = e
  · rw [hd']
    exact Nat.pos_of_ne_zero hlast
  · rw [update_of_ne hd']
    exact h.linked.refs d hd

/-- `graph_alloc_vertex`: the new vertex comes last. -/
theorem graphAllocVertex_ordered {g : OwnerGraph} (h : Ordered g) (v : Nat) (hv : v ∉ g.owners) :
    Ordered (graphAllocVertex g v) := by
  have hne : ∀ w ∈ g.owners, w ≠ v := fun w hw heq => hv (heq ▸ hw)
  have hord : ∀ w ∈ g.owners, update g.vOrder v g.gSize w = g.vOrder w := fun w hw =>
    update_of_ne (hne w hw) _ _
  rcases linked_iff.mp h.linked with ⟨ho, hi, hrest⟩
  refine ⟨linked_iff.mpr ⟨ho.alloc hv, hi.alloc hv, hrest⟩,
    ⟨List.nodup_cons.mpr ⟨hv, h.numbered.nodup⟩, ?_, ?_, ?_, ?_⟩, ?_, ?_, h.genLt, ?_⟩
  · simp only [graphAllocVertex, List.length_cons, h.numbered.length]
  · intro w hw
    simp only [graphAllocVertex]
    rcases List.mem_cons.mp hw with rfl | hw'
    · rw [update_self]
      exact Nat.lt_succ_self _
    · rw [hord w hw']
      exact Nat.lt_succ_of_lt (h.numbered.lt w hw')
  · intro w hw
    simp only [graphAllocVertex]
    rcases List.mem_cons.mp hw with rfl | hw'
    · rw [update_self, update_self]
    · rw [hord w hw', update_of_ne (ne_of_lt (h.numbered.lt w hw'))]
      exact h.numbered.slot w hw'
  · intro i hi
    simp only [graphAllocVertex] at hi ⊢
    by_cases hlast : i = g.gSize
    · rw [hlast, update_self, update_self]
      exact ⟨List.mem_cons_self .., rfl⟩
    rcases h.numbered.onto i (by omega) with ⟨howner, horder⟩
    rw [update_of_ne hlast, hord _ howner]
    exact ⟨List.mem_cons_of_mem v howner, horder⟩
  · intro d hd
    simp only [graphAllocVertex]
    rcases h.linked.ends d hd with ⟨hf, ht⟩
    rw [hord _ hf, hord _ ht]
    exact h.ascending d hd
  · intro w hw
    simp only [graphAllocVertex]
    rcases List.mem_cons.mp hw with rfl | hw'
    · rw [update_self]
    · rw [update_of_ne (hne w hw')]
      exact h.gens w hw'
  have hspace := h.space
  simp only [graphAllocVertex]
  split <;> omega

/-- Closing the gap: the vertices from a place on move down by one. -/
theorem closeGap_spec (n : Nat) : ∀ (i : Nat) (g : OwnerGraph), 0 < i →
    (∀ j k, i ≤ j → j < i + n → i ≤ k → k < i + n → g.gVertices j = g.gVertices k → j = k) →
    (∃ o slots, closeGap n i g = { g with vOrder := o, gVertices := slots }) ∧
    (∀ j, i ≤ j → j < i + n → (closeGap n i g).vOrder (g.gVertices j) = g.vOrder (g.gVertices j) - 1) ∧
    (∀ w, (∀ j, i ≤ j → j < i + n → g.gVertices j ≠ w) → (closeGap n i g).vOrder w = g.vOrder w) ∧
    ∀ j, (closeGap n i g).gVertices j =
      if i ≤ j + 1 ∧ j + 1 < i + n then g.gVertices (j + 1) else g.gVertices j := by
  induction n with
  | zero =>
    intro i g hi _
    refine ⟨⟨g.vOrder, g.gVertices, rfl⟩, fun j hj hlt => by omega, fun w _ => rfl, fun j => ?_⟩
    rw [if_neg (by omega)]
    rfl
  | succ n ih =>
    intro i g hi hinj
    have hread : ∀ j, i ≤ j → update g.gVertices (i - 1) (g.gVertices i) j =
        g.gVertices j := fun j hj => update_of_ne (by omega) _ _
    rcases ih (i + 1) { g with
        vOrder := update g.vOrder (g.gVertices i) (g.vOrder (g.gVertices i) - 1),
        gVertices := update g.gVertices (i - 1) (g.gVertices i) } (by omega)
      (fun j k hj hj' hk hk' heq => by
        simp only [hread j (by omega), hread k (by omega)] at heq
        exact hinj j k (by omega) (by omega) (by omega) (by omega) heq) with
      ⟨⟨o, slots, heq⟩, hmoved, hkept, hslots⟩
    simp only at hmoved hkept hslots
    refine ⟨⟨o, slots, heq⟩, fun j hj hj' => ?_, fun w hw => ?_, fun j => ?_⟩
    · simp only [closeGap]
      by_cases hfirst : j = i
      · -- The first vertex is not met again.
        rw [hfirst, hkept _ (fun k hk hk' heq' => ?_), update_self]
        rw [hread k (by omega)] at heq'
        exact absurd (hinj k i (by omega) (by omega) (by omega) (by omega) heq') (by omega)
      have hm := hmoved j (by omega) (by omega)
      rw [hread j hj, update_of_ne (fun heq' => hfirst
        (hinj j i hj hj' (by omega) (by omega) heq'))] at hm
      exact hm
    · simp only [closeGap]
      rw [hkept w (fun j hj hj' => by
        rw [hread j (by omega)]
        exact hw j (by omega) (by omega)), update_of_ne (fun heq' =>
          hw i le_rfl (by omega) heq'.symm)]
    simp only [closeGap]
    rw [hslots j]
    by_cases hin : i + 1 ≤ j + 1 ∧ j + 1 < i + 1 + n
    · rw [if_pos hin, if_pos (by omega), hread (j + 1) (by omega)]
    rw [if_neg hin]
    by_cases hfirst : j = i - 1
    · rw [hfirst, update_self, if_pos (by omega), Nat.sub_add_cancel hi]
    · rw [update_of_ne hfirst, if_neg (by omega)]

/-- `graph_free_vertex` of a vertex without edges. -/
theorem graphFreeVertex_spec {g : OwnerGraph} (h : Ordered g) (v : Nat) (hv : v ∈ g.owners)
    (hout : g.vOutedges v = []) (hinn : g.vInedges v = []) :
    ∃ g', graphFreeVertex g v = some g' ∧ Ordered g' := by
  have hvlt := h.numbered.lt v hv
  have hend : g.vOrder v + 1 + (g.gSize - (g.vOrder v + 1)) = g.gSize := by omega
  rcases closeGap_spec (g.gSize - (g.vOrder v + 1)) (g.vOrder v + 1) g (Nat.succ_pos _)
    (fun j k hj hj' hk hk' heq => by
      rw [← (h.numbered.onto j (by omega)).2, heq, (h.numbered.onto k (by omega)).2]) with
    ⟨⟨o, slots, heq⟩, hmoved, hkept, hslots⟩
  rw [hend] at hmoved hkept hslots
  rw [heq] at hmoved hkept hslots
  simp only at hmoved hkept hslots
  have hmem : ∀ w, w ∈ g.owners.erase v ↔ w ≠ v ∧ w ∈ g.owners := fun w =>
    h.numbered.nodup.mem_erase_iff
  -- The order numbers after the gap is closed.
  have habove : ∀ w ∈ g.owners, g.vOrder v < g.vOrder w → o w = g.vOrder w - 1 := by
    intro w hw hlt
    have hm := hmoved (g.vOrder w) hlt (h.numbered.lt w hw)
    rwa [h.numbered.slot w hw] at hm
  have hbelow : ∀ w ∈ g.owners, g.vOrder w < g.vOrder v → o w = g.vOrder w := by
    intro w hw hlt
    refine hkept w (fun j hj hj' heq' => ?_)
    have := (h.numbered.onto j hj').2
    rw [heq'] at this
    omega
  have hne : ∀ w ∈ g.owners, w ≠ v → g.vOrder w ≠ g.vOrder v := fun w hw hwv heq' =>
    hwv (h.numbered.inj w v hw hv heq')
  have hcases : ∀ w ∈ g.owners, w ≠ v → (g.vOrder w < g.vOrder v ∧ o w = g.vOrder w) ∨
      (g.vOrder v < g.vOrder w ∧ o w = g.vOrder w - 1) := by
    intro w hw hwv
    rcases Nat.lt_or_gt_of_ne (hne w hw hwv) with hlt | hgt
    · exact Or.inl ⟨hlt, hbelow w hw hlt⟩
    · exact Or.inr ⟨hgt, habove w hw hgt⟩
  rcases linked_iff.mp h.linked with ⟨ho, hi, hrest⟩
  have ho' := ho.free h.numbered.nodup hout
  have hi' := hi.free h.numbered.nodup hinn
  have hnum : Numbered { g with vOrder := o, gVertices := slots, gSize := g.gSize - 1,
                                owners := g.owners.erase v } := by
    refine ⟨h.numbered.nodup.erase v, ?_, fun w hw => ?_, fun w hw => ?_, fun i hi => ?_⟩
    · simp only [List.length_erase_of_mem hv, h.numbered.length]
    · rcases (hmem w).mp hw with ⟨hwv, hwo⟩
      have := h.numbered.lt w hwo
      simp only
      rcases hcases w hwo hwv with ⟨hlt, ho⟩ | ⟨hgt, ho⟩
      · rw [ho]
        omega
      · rw [ho]
        omega
    · rcases (hmem w).mp hw with ⟨hwv, hwo⟩
      have hwlt := h.numbered.lt w hwo
      simp only
      rw [hslots]
      rcases hcases w hwo hwv with ⟨hlt, ho⟩ | ⟨hgt, ho⟩
      · rw [ho, if_neg (by omega), h.numbered.slot w hwo]
      · rw [ho, if_pos (by omega), Nat.sub_add_cancel (by omega), h.numbered.slot w hwo]
    simp only at hi ⊢
    rw [hslots]
    by_cases hge : g.vOrder v + 1 ≤ i + 1 ∧ i + 1 < g.gSize
    · rcases h.numbered.onto (i + 1) hge.2 with ⟨howner, horder⟩
      rw [if_pos hge, habove _ howner (by omega), horder]
      refine ⟨(hmem _).mpr ⟨fun heq' => ?_, howner⟩, by omega⟩
      rw [heq'] at horder
      omega
    rcases h.numbered.onto i (by omega) with ⟨howner, horder⟩
    rw [if_neg hge, hbelow _ howner (by omega)]
    refine ⟨(hmem _).mpr ⟨fun heq' => ?_, howner⟩, horder⟩
    rw [heq'] at horder
    omega
  refine ⟨{ g with vOrder := o, gVertices := slots, gSize := g.gSize - 1,
                   owners := g.owners.erase v }, ?_, linked_iff.mpr ⟨ho', hi', hrest⟩, hnum, ?_, ?_,
    h.genLt, ?_⟩
  · simp only [graphFreeVertex, hout, hinn, List.isEmpty_nil, and_self, if_true, heq]
  · intro e he
    have hup := h.ascending e he
    rcases (hmem _).mp (ho'.ends e he) with ⟨hfv, hfo⟩
    rcases (hmem _).mp (hi'.ends e he) with ⟨htv, hto⟩
    simp only
    rcases hcases _ hfo hfv with ⟨hlt, ho⟩ | ⟨hgt, ho⟩
    · rcases hcases _ hto htv with ⟨hlt', ho'⟩ | ⟨hgt', ho'⟩
      · omega
      · omega
    rcases hcases _ hto htv with ⟨hlt', ho'⟩ | ⟨hgt', ho'⟩
    · omega
    · omega
  · exact fun w hw => h.gens w ((hmem w).mp hw).2
  have hspace := h.space
  simp only
  omega

/-- The operations on the graph. A new vertex or edge comes with its memory. -/
inductive GraphOp where
  | allocVertex (v : Nat)
  | addEdge (x y e : Nat)
  | removeEdge (x y : Nat)
  | freeVertex (v : Nat)

def GraphOp.exec (g : OwnerGraph) : GraphOp → Option OwnerGraph
  | .allocVertex v => some (graphAllocVertex g v)
  | .addEdge x y e => (graphAddEdge g x y e).map Prod.snd
  | .removeEdge x y => graphRemoveEdge g x y
  | .freeVertex v => graphFreeVertex g v

/-- What the lock code keeps to: memory for something new is not in use, edges
    join two different vertices in use, only existing edges are removed and
    only vertices without edges freed. -/
def GraphOp.Valid (g : OwnerGraph) : GraphOp → Prop
  | .allocVertex v => v ∉ g.owners
  | .addEdge x y e => x ∈ g.owners ∧ y ∈ g.owners ∧ x ≠ y ∧ e ∉ g.edges
  | .removeEdge x y => x ∈ g.owners ∧ y ∈ successors g x
  | .freeVertex v => v ∈ g.owners ∧ g.vOutedges v = [] ∧ g.vInedges v = []

instance (g : OwnerGraph) (op : GraphOp) : Decidable (op.Valid g) :=
  match op with
  | .allocVertex v => inferInstanceAs (Decidable (v ∉ g.owners))
  | .addEdge x y e => inferInstanceAs (Decidable (x ∈ g.owners ∧ y ∈ g.owners ∧ x ≠ y ∧ e ∉ g.edges))
  | .removeEdge x y => inferInstanceAs (Decidable (x ∈ g.owners ∧ y ∈ successors g x))
  | .freeVertex v =>
    inferInstanceAs (Decidable (v ∈ g.owners ∧ g.vOutedges v = [] ∧ g.vInedges v = []))

theorem graphInit_ordered : Ordered graphInit := by
  refine ⟨⟨?_, ?_, ?_, ?_, ?_, ?_, ?_, ?_, List.nodup_nil, ?_⟩,
    ⟨List.nodup_nil, rfl, ?_, ?_, ?_⟩, ?_, ?_, by decide, by decide, by decide⟩
  any_goals exact fun v hv => absurd hv List.not_mem_nil
  exact fun i hi => absurd hi (Nat.not_lt_zero i)

theorem exec_ordered (g : OwnerGraph) (op : GraphOp) (h : Ordered g) (hv : op.Valid g) :
    ∃ g', op.exec g = some g' ∧ Ordered g' := by
  cases op with
  | allocVertex v => exact ⟨_, rfl, graphAllocVertex_ordered h v hv⟩
  | addEdge x y e =>
    rcases hv with ⟨hx, hy, hxy, he⟩
    rcases graphAddEdge_spec h x y e hx hy hxy he with ⟨error, g', hadd, hord, -⟩
    exact ⟨g', by rw [GraphOp.exec, hadd]; rfl, hord⟩
  | removeEdge x y =>
    exact graphRemoveEdge_spec h x y hv.1 ((mem_successors h.linked x y hv.1).mp hv.2)
  | freeVertex v => exact graphFreeVertex_spec h v hv.1 hv.2.1 hv.2.2

/-- The paths along the lists are the paths along the edges in use. -/
theorem graphReaches_iff {g : OwnerGraph} (h : Linked g) (a b : Nat) (ha : a ∈ g.owners) :
    GraphReaches g a b ↔ Reaches g a b := by
  constructor
  · intro hpath
    induction hpath with
    | refl => exact Relation.ReflTransGen.refl
    | tail _ hstep ih => exact ih.tail ((mem_successors h _ _ (ih.owners_right h ha)).mp hstep)
  intro hpath
  induction hpath with
  | refl => exact Relation.ReflTransGen.refl
  | tail _ hedge ih => exact ih.tail ((mem_successors h _ _ (hedge.owners h).1).mpr hedge)

/-- After any sequence of operations every vertex sits at its order number, the
    numbers are those below the size, edges go up, and an edge is refused
    exactly where it would close a cycle, with nothing changed but marks. -/
theorem owner_graph_ordered (ops : List GraphOp)
    (hvalid : Lib.EveryStep (fun g op => GraphOp.exec g op) (fun g op => op.Valid g) graphInit ops) :
    ∃ g, Lib.runOps (fun g op => GraphOp.exec g op) graphInit ops = some g ∧
      (∀ v ∈ g.owners, g.vOrder v < g.gSize ∧ g.gVertices (g.vOrder v) = v) ∧
      (∀ i, i < g.gSize → ∃ v ∈ g.owners, g.vOrder v = i) ∧
      (∀ x ∈ g.owners, ∀ y ∈ successors g x, y ∈ g.owners ∧ g.vOrder x < g.vOrder y) ∧
      ∀ x y e, GraphOp.Valid g (.addEdge x y e) →
        ∃ error g', graphAddEdge g x y e = some (error, g') ∧
          (error = edeadlk ↔ GraphReaches g y x) ∧ (error = edeadlk → SameButMarks g g') := by
  rcases Lib.runOps_progress_of (fun g op => GraphOp.exec g op) (fun g op => op.Valid g) Ordered
    (fun g op h hv => exec_ordered g op h hv) ops graphInit graphInit_ordered hvalid with
    ⟨g, hrun, h⟩
  refine ⟨g, hrun, fun v hv => ⟨h.numbered.lt v hv, h.numbered.slot v hv⟩, fun i hi => ?_,
    fun x hx y hy => ?_, fun x y e hv => ?_⟩
  · exact ⟨g.gVertices i, (h.numbered.onto i hi).1, (h.numbered.onto i hi).2⟩
  · rcases (mem_successors h.linked x y hx).mp hy with ⟨e, he, rfl, rfl⟩
    exact ⟨(h.linked.ends e he).2, h.ascending e he⟩
  rcases hv with ⟨hx, hy, hxy, he⟩
  rcases graphAddEdge_spec h x y e hx hy hxy he with ⟨error, g', hadd, -, hiff, hsame⟩
  exact ⟨error, g', hadd, by rw [hiff, graphReaches_iff h.linked y x hy], hsame⟩

/-- Three owners waiting in a row, in an order that has to be repaired. -/
theorem owner_graph_ordered_three :
    ∃ g, Lib.runOps (fun g op => GraphOp.exec g op) graphInit [.allocVertex 0, .allocVertex 1,
        .allocVertex 2, .addEdge 2 1 0, .addEdge 1 0 1] = some g ∧
      ∀ v ∈ g.owners, g.vOrder v < g.gSize ∧ g.gVertices (g.vOrder v) = v := by
  rcases owner_graph_ordered [.allocVertex 0, .allocVertex 1, .allocVertex 2, .addEdge 2 1 0,
    .addEdge 1 0 1] (by decide) with ⟨g, hrun, hslot, -⟩
  exact ⟨g, hrun, hslot⟩

-- The edge that would close the circle is refused.
example : ((Lib.runOps (fun g op => GraphOp.exec g op) graphInit [.allocVertex 0, .allocVertex 1,
    .allocVertex 2, .addEdge 2 1 0, .addEdge 1 0 1]).bind
      (fun g => graphAddEdge g 0 2 2)).map Prod.fst = some edeadlk := by decide

end FreeBSDKern.Lockf
