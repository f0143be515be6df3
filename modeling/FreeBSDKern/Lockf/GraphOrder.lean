import FreeBSDKern.Lib.Reorder
import FreeBSDKern.Lockf.OwnerGraph

/-!
# The Order of the Owner Graph

Why renumbering works. The forward search collects what can be reached from
`y` below `x`, the backward search what reaches `x` from above `y`. If `x`
itself cannot be reached the two are disjoint, and handing their numbers out
again, the second list first, turns the new edge upwards.

That no other edge is turned downwards is a case analysis on where its ends
lie. Inside either list the order is kept. The first list only moves down and
the second only up, so an edge that leaves the one or enters the other gets
longer. An edge that leaves the second list for an outsider ends above `x`, and
one that enters the first from outside starts below `y`, beyond all the numbers
handed out.

## Main definitions

* `Linked`: The edge structures and the lists they are on.
* `Numbered`: The array and the order numbers answer each other.
* `Ordered`: The graph between operations.
* `SameButMarks`: Nothing but marks has changed.

## Theorems

* `nextGen_spec`: A new generation number is carried by no vertex.
* `graphDeltaForward_spec`, `graphDeltaBackward_spec`: What the searches find.
* `graphAssignIndices_spec`: Who gets which number.
* `ascending_renumber`: Every edge still goes up.
* `graphAddEdge_spec`: An edge is refused exactly where it closes a cycle.
-/

namespace FreeBSDKern.Lockf

open Function

/-- There is an edge from one vertex to the other. -/
def Edge (g : OwnerGraph) (a b : Nat) : Prop := ∃ e ∈ g.edges, g.eFrom e = a ∧ g.eTo e = b

/-- One vertex is reachable from the other. -/
def Reaches (g : OwnerGraph) : Nat → Nat → Prop := Relation.ReflTransGen (Edge g)

/-- The edge structures: an edge in use is on the lists of both its ends, only
    one edge leads from one vertex to another, and the lists hold nothing
    else. -/
structure Linked (g : OwnerGraph) : Prop where
  out : ∀ x ∈ g.owners, ∀ e ∈ g.vOutedges x, e ∈ g.edges ∧ g.eFrom e = x
  inn : ∀ y ∈ g.owners, ∀ e ∈ g.vInedges y, e ∈ g.edges ∧ g.eTo e = y
  ends : ∀ e ∈ g.edges, g.eFrom e ∈ g.owners ∧ g.eTo e ∈ g.owners
  onOut : ∀ e ∈ g.edges, e ∈ g.vOutedges (g.eFrom e)
  onIn : ∀ e ∈ g.edges, e ∈ g.vInedges (g.eTo e)
  nodupOut : ∀ x ∈ g.owners, (g.vOutedges x).Nodup
  nodupIn : ∀ y ∈ g.owners, (g.vInedges y).Nodup
  single : ∀ e ∈ g.edges, ∀ e' ∈ g.edges, g.eFrom e = g.eFrom e' → g.eTo e = g.eTo e' → e = e'
  nodup : g.edges.Nodup
  refs : ∀ e ∈ g.edges, 0 < g.eRefs e

/-- The numbering: the vertices in use are exactly the entries of `g_vertices`,
    each at its own order number. -/
structure Numbered (g : OwnerGraph) : Prop where
  nodup : g.owners.Nodup
  length : g.owners.length = g.gSize
  lt : ∀ v ∈ g.owners, g.vOrder v < g.gSize
  slot : ∀ v ∈ g.owners, g.gVertices (g.vOrder v) = v
  onto : ∀ i, i < g.gSize → g.gVertices i ∈ g.owners ∧ g.vOrder (g.gVertices i) = i

/-- The graph between operations. -/
structure Ordered (g : OwnerGraph) : Prop where
  linked : Linked g
  numbered : Numbered g
  ascending : ∀ e ∈ g.edges, g.vOrder (g.eFrom e) < g.vOrder (g.eTo e)
  gens : ∀ v ∈ g.owners, g.vGen v ≤ g.gGen
  genLt : g.gGen < 2 ^ 32
  space : g.gSize ≤ g.gSpace ∧ 0 < g.gSpace

variable {g : OwnerGraph} {a b : Nat}

theorem Numbered.inj (h : Numbered g) (v w : Nat) (hv : v ∈ g.owners) (hw : w ∈ g.owners)
    (heq : g.vOrder v = g.vOrder w) : v = w := by
  rw [← h.slot v hv, ← h.slot w hw, heq]

theorem mem_successors (h : Linked g) (a b : Nat) (ha : a ∈ g.owners) :
    b ∈ successors g a ↔ Edge g a b := by
  rw [successors, List.mem_map]
  refine ⟨fun ⟨e, he, hb⟩ => ⟨e, (h.out a ha e he).1, (h.out a ha e he).2, hb⟩, ?_⟩
  rintro ⟨e, he, hfrom, hto⟩
  exact ⟨e, hfrom ▸ h.onOut e he, hto⟩

theorem mem_predecessors (h : Linked g) (a b : Nat) (ha : a ∈ g.owners) :
    b ∈ predecessors g a ↔ Edge g b a := by
  rw [predecessors, List.mem_map]
  refine ⟨fun ⟨e, he, hb⟩ => ⟨e, (h.inn a ha e he).1, hb, (h.inn a ha e he).2⟩, ?_⟩
  rintro ⟨e, he, hfrom, hto⟩
  exact ⟨e, hto ▸ h.onIn e he, hfrom⟩

theorem Edge.owners (h : Linked g) (hab : Edge g a b) : a ∈ g.owners ∧ b ∈ g.owners := by
  rcases hab with ⟨e, he, rfl, rfl⟩
  exact h.ends e he

/-- Paths go up. -/
theorem Reaches.order (hasc : ∀ e ∈ g.edges, g.vOrder (g.eFrom e) < g.vOrder (g.eTo e))
    (h : Reaches g a b) : a = b ∨ g.vOrder a < g.vOrder b := by
  induction h with
  | refl => exact Or.inl rfl
  | tail _ hedge ih =>
    rcases hedge with ⟨e, he, rfl, rfl⟩
    have hup := hasc e he
    rcases ih with heq | hlt
    · exact Or.inr (heq ▸ hup)
    · exact Or.inr (lt_trans hlt hup)

theorem Reaches.owners_right (hl : Linked g) (h : Reaches g a b) (ha : a ∈ g.owners) :
    b ∈ g.owners := by
  rcases Relation.ReflTransGen.cases_tail h with rfl | ⟨c, -, hedge⟩
  · exact ha
  · exact (hedge.owners hl).2

theorem Reaches.owners_left (hl : Linked g) (h : Reaches g a b) (hb : b ∈ g.owners) :
    a ∈ g.owners := by
  rcases Relation.ReflTransGen.cases_head h with rfl | ⟨c, hedge, -⟩
  · exact hb
  · exact (hedge.owners hl).1

/-- What the forward search walks through: everything reachable from `y` that
    lies below the bound. -/
theorem forward_iff (h : Ordered g) (y bound : Nat) (hy : y ∈ g.owners) (hlt : g.vOrder y < bound)
    (v : Nat) :
    Relation.ReflTransGen (Lib.Step (fun w => decide (g.vOrder w < bound)) (successors g)) y v ↔
      Reaches g y v ∧ g.vOrder v < bound := by
  constructor
  · intro hpath
    induction hpath with
    | refl => exact ⟨Relation.ReflTransGen.refl, hlt⟩
    | tail _ hstep ih =>
      have hin := ih.1.owners_right h.linked hy
      exact ⟨ih.1.tail ((mem_successors h.linked _ _ hin).mp hstep.1), of_decide_eq_true hstep.2⟩
  rintro ⟨hpath, hbound⟩
  induction hpath with
  | refl => exact Relation.ReflTransGen.refl
  | @tail b c hyb hedge ih =>
    -- The path goes up, so the vertex before is below the bound as well.
    have hup : g.vOrder b < g.vOrder c := by
      rcases hedge with ⟨e, he, rfl, rfl⟩
      exact h.ascending e he
    refine (ih (lt_trans hup hbound)).tail ⟨?_, decide_eq_true hbound⟩
    exact (mem_successors h.linked b c (hedge.owners h.linked).1).mpr hedge

/-- What the backward search walks through: everything that reaches `x` from
    above the bound. -/
theorem backward_iff (h : Ordered g) (x bound : Nat) (hx : x ∈ g.owners) (hlt : bound < g.vOrder x)
    (v : Nat) :
    Relation.ReflTransGen (Lib.Step (fun w => decide (g.vOrder w > bound)) (predecessors g)) x v ↔
      Reaches g v x ∧ bound < g.vOrder v := by
  constructor
  · intro hpath
    induction hpath with
    | refl => exact ⟨Relation.ReflTransGen.refl, hlt⟩
    | tail _ hstep ih =>
      have hin := ih.1.owners_left h.linked hx
      exact ⟨Relation.ReflTransGen.head ((mem_predecessors h.linked _ _ hin).mp hstep.1) ih.1,
        of_decide_eq_true hstep.2⟩
  rintro ⟨hpath, hbound⟩
  induction hpath using Relation.ReflTransGen.head_induction_on with
  | refl => exact Relation.ReflTransGen.refl
  | @head a c hedge hcx ih =>
    have hup : g.vOrder a < g.vOrder c := by
      rcases hedge with ⟨e, he, rfl, rfl⟩
      exact h.ascending e he
    refine (ih (lt_trans hbound hup)).tail ⟨?_, decide_eq_true hbound⟩
    exact (mem_predecessors h.linked c a (hedge.owners h.linked).2).mpr hedge

/-- No vertex carries the mark of the next search. -/
def Clean (g : OwnerGraph) : Prop := ∀ v ∈ g.owners, g.vGen v ≠ g.gGen

/-- Only the marks and the generation number may differ. -/
def SameButMarks (g g' : OwnerGraph) : Prop :=
  g' = { g with vGen := g'.vGen, gGen := g'.gGen }

/-- Marks do not matter to the links and the numbering. -/
theorem Ordered.remark (h : Ordered g) (vGen : Nat → Nat) (gen : Nat)
    (hgens : ∀ v ∈ g.owners, vGen v ≤ gen) (hlt : gen < 2 ^ 32) :
    Ordered { g with vGen := vGen, gGen := gen } :=
  ⟨{ h.linked with }, { h.numbered with }, h.ascending, hgens, hlt, h.space⟩

/-- Clearing the marks of the vertices listed in `g_vertices`. -/
theorem foldl_clear (slots : Nat → Nat) (n : Nat) (vGen : Nat → Nat) (v : Nat) :
    (List.range n).foldl (fun vGen vi => update vGen (slots vi) 0) vGen v =
      if ∃ i, i < n ∧ slots i = v then 0 else vGen v := by
  induction n with
  | zero =>
    rw [if_neg (fun ⟨i, hi, _⟩ => absurd hi (Nat.not_lt_zero i))]
    rfl
  | succ n ih =>
    rw [List.range_succ, List.foldl_append, List.foldl_cons, List.foldl_nil, update_apply, ih]
    by_cases hlast : v = slots n
    · rw [if_pos hlast, if_pos ⟨n, Nat.lt_succ_self n, hlast.symm⟩]
    rw [if_neg hlast]
    congr 1
    refine propext ⟨fun ⟨i, hi, heq⟩ => ⟨i, Nat.lt_succ_of_lt hi, heq⟩, fun ⟨i, hi, heq⟩ => ?_⟩
    rcases Nat.lt_succ_iff_lt_or_eq.mp hi with hi | rfl
    · exact ⟨i, hi, heq⟩
    · exact absurd heq.symm hlast

theorem nextGen_spec (h : Ordered g) :
    Ordered (nextGen g) ∧ Clean (nextGen g) ∧ SameButMarks g (nextGen g) := by
  have hlt := h.genLt
  unfold nextGen
  by_cases hwrap : (g.gGen + 1) % 2 ^ 32 = 0
  · simp only [hwrap, if_true]
    -- Every vertex is listed, so every mark is cleared.
    have hzero : ∀ v ∈ g.owners, (List.range g.gSize).foldl (fun vGen vi =>
        update vGen (g.gVertices vi) 0) g.vGen v = 0 := by
      intro v hv
      rw [foldl_clear, if_pos ⟨g.vOrder v, h.numbered.lt v hv, h.numbered.slot v hv⟩]
    refine ⟨h.remark _ 1 (fun v hv => ?_) (by decide), fun v hv heq => ?_, rfl⟩
    · rw [hzero v hv]
      exact Nat.zero_le 1
    · exact Nat.zero_ne_one ((hzero v hv).symm.trans heq)
  simp only [hwrap, if_false]
  have hgen : (g.gGen + 1) % 2 ^ 32 = g.gGen + 1 := by omega
  rw [hgen]
  refine ⟨h.remark g.vGen (g.gGen + 1) (fun v hv => Nat.le_succ_of_le (h.gens v hv)) (by omega),
    fun v hv heq => ?_, rfl⟩
  have := h.gens v hv
  simp only at heq
  omega

/-- The forward search sees `x` exactly where `x` is reachable from `y`, and
    otherwise finds what `y` reaches below `x`. -/
theorem graphDeltaForward_spec (h : Ordered g) (hclean : Clean g) (x y : Nat) (hx : x ∈ g.owners)
    (hy : y ∈ g.owners) (hlt : g.vOrder y < g.vOrder x) :
    (∀ v, (graphDeltaForward g x y).1 v = g.gGen ∨ (graphDeltaForward g x y).1 v = g.vGen v) ∧
    (((graphDeltaForward g x y).2 = .forbidden ∧ Reaches g y x) ∨
      ∃ deltaF, (graphDeltaForward g x y).2 = .found deltaF ∧ ¬ Reaches g y x ∧ deltaF.Nodup ∧
        (∀ v, v ∈ deltaF ↔ Reaches g y v ∧ g.vOrder v < g.vOrder x) ∧
        ∀ v, v ∉ deltaF → (graphDeltaForward g x y).1 v = g.vGen v) := by
  have hiff := forward_iff h y (g.vOrder x) hy hlt
  have hroot : ∀ v, Relation.ReflTransGen (Lib.Step (fun w => decide (g.vOrder w < g.vOrder x))
      (successors g)) y v → y ∉ successors g v := by
    intro v hv hin
    have hyv := ((hiff v).mp hv).1
    rcases (mem_successors h.linked v y (hyv.owners_right h.linked hy)).mp hin with
      ⟨e, he, hfrom, hto⟩
    have hup := h.ascending e he
    rw [hfrom, hto] at hup
    rcases hyv.order h.ascending with rfl | hlt'
    · exact lt_irrefl _ hup
    · exact Nat.lt_asymm hup hlt'
  have hres := Lib.search_spec g.gGen (fun w => w == x) g.owners hroot
    (fun v hv => ((hiff v).mp hv).1.owners_right h.linked hy) g.vGen
    (fun w hw _ => hclean w (((hiff w).mp hw).1.owners_right h.linked hy))
  rw [h.numbered.length] at hres
  rcases hres with ⟨hmarks, hend⟩
  refine ⟨hmarks, ?_⟩
  rcases hend with ⟨hforb, v, w, hv, hw, hstop⟩ | ⟨deltaF, hfound, hnodup, hmem, hstop, hout⟩
  · -- The vertex seen is `x`.
    have hyv := ((hiff v).mp hv).1
    have hwx : w = x := beq_iff_eq.mp hstop
    exact Or.inl ⟨hforb, hyv.tail
      ((mem_successors h.linked v x (hyv.owners_right h.linked hy)).mp (hwx ▸ hw))⟩
  refine Or.inr ⟨deltaF, hfound, fun hyx => ?_, hnodup, fun v => (hmem v).trans (hiff v), hout⟩
  -- The last edge of a path to `x` starts at a vertex of the list.
  rcases Relation.ReflTransGen.cases_tail hyx with heq | ⟨u, hyu, hedge⟩
  · exact lt_irrefl _ (heq ▸ hlt)
  have hup : g.vOrder u < g.vOrder x := by
    rcases hedge with ⟨e, he, rfl, rfl⟩
    exact h.ascending e he
  have hu : u ∈ deltaF := (hmem u).mpr ((hiff u).mpr ⟨hyu, hup⟩)
  have hx' := hstop u hu x ((mem_successors h.linked u x (hedge.owners h.linked).1).mpr hedge)
  simp at hx'

/-- The backward search finds what reaches `x` from above `y`, whatever marks
    stand elsewhere. -/
theorem graphDeltaBackward_spec (h : Ordered g) (x y : Nat) (hx : x ∈ g.owners)
    (hlt : g.vOrder y < g.vOrder x)
    (hclean : ∀ v, Reaches g v x → g.vOrder y < g.vOrder v → g.vGen v ≠ g.gGen) :
    (∀ v, (graphDeltaBackward g x y).1 v = g.gGen ∨ (graphDeltaBackward g x y).1 v = g.vGen v) ∧
    ∃ deltaB, (graphDeltaBackward g x y).2 = .found deltaB ∧ deltaB.Nodup ∧
      ∀ v, v ∈ deltaB ↔ Reaches g v x ∧ g.vOrder y < g.vOrder v := by
  have hiff := backward_iff h x (g.vOrder y) hx hlt
  have hroot : ∀ v, Relation.ReflTransGen (Lib.Step (fun w => decide (g.vOrder w > g.vOrder y))
      (predecessors g)) x v → x ∉ predecessors g v := by
    intro v hv hin
    have hvx := ((hiff v).mp hv).1
    rcases (mem_predecessors h.linked v x (hvx.owners_left h.linked hx)).mp hin with
      ⟨e, he, hfrom, hto⟩
    have hup := h.ascending e he
    rw [hfrom, hto] at hup
    rcases hvx.order h.ascending with heq | hlt'
    · exact lt_irrefl _ (heq ▸ hup)
    · exact Nat.lt_asymm hup hlt'
  have hres := Lib.search_spec g.gGen (fun _ => false) g.owners hroot
    (fun v hv => ((hiff v).mp hv).1.owners_left h.linked hx) g.vGen
    (fun w hw _ => hclean w ((hiff w).mp hw).1 ((hiff w).mp hw).2)
  rw [h.numbered.length] at hres
  unfold graphDeltaBackward
  rcases hsearch : Lib.search g.gGen (fun _ => false) (fun w => decide (g.vOrder w > g.vOrder y))
    (predecessors g) g.gSize g.vGen [] [x] with ⟨vGen, outcome⟩
  rw [hsearch] at hres
  rcases hres with ⟨hmarks, ⟨-, v, w, -, -, hstop⟩ | ⟨delta, hfound, hnodup, hmem, -, -⟩⟩
  · cases hstop
  simp only at hfound
  subst hfound
  exact ⟨hmarks, delta.reverse, rfl, List.nodup_reverse.mpr hnodup, fun v => by
    rw [List.mem_reverse, hmem v, hiff v]⟩

theorem dropWhile_le (order : Nat) (l : List Nat) (hl : l.Pairwise (· > ·)) :
    ∀ i ∈ l.dropWhile (· > order), i ≤ order := by
  induction l with
  | nil => intro i hi; exact absurd hi List.not_mem_nil
  | cons j l ih =>
    rw [List.pairwise_cons] at hl
    by_cases hj : j > order
    · rw [List.dropWhile_cons_of_pos (by simpa using hj)]
      exact ih hl.2
    rw [List.dropWhile_cons_of_neg (by simpa using hj)]
    intro i hi
    rcases List.mem_cons.mp hi with rfl | hi
    · omega
    · have := hl.1 i hi
      omega

/-- A number is sorted in among the others. -/
theorem addIndex_spec (indices : List Nat) (order : Nat) (h : indices.Pairwise (· < ·))
    (hnew : order ∉ indices) :
    (addIndex indices order).Pairwise (· < ·) ∧ (addIndex indices order).Perm (order :: indices) := by
  have hrev : indices.reverse.Pairwise (· > ·) := List.pairwise_reverse.mpr h
  have hsplit : (indices.reverse.dropWhile (· > order)).reverse ++
      (indices.reverse.takeWhile (· > order)).reverse = indices := by
    rw [← List.reverse_append, List.takeWhile_append_dropWhile, List.reverse_reverse]
  have hfront : ∀ i ∈ (indices.reverse.dropWhile (· > order)).reverse, i < order := by
    intro i hi
    have hle := dropWhile_le order indices.reverse hrev i (List.mem_reverse.mp hi)
    have hne : i ≠ order := fun heq => hnew (heq ▸ hsplit ▸ List.mem_append_left _ hi)
    omega
  have hback : ∀ i ∈ (indices.reverse.takeWhile (· > order)).reverse, order < i := by
    intro i hi
    simpa using List.mem_takeWhile_imp (List.mem_reverse.mp hi)
  rw [← hsplit, List.pairwise_append] at h
  refine ⟨?_, ?_⟩
  · rw [addIndex, List.pairwise_append, List.pairwise_cons]
    refine ⟨h.1, ⟨hback, h.2.1⟩, fun i hi j hj => ?_⟩
    rcases List.mem_cons.mp hj with rfl | hj
    · exact hfront i hi
    · exact h.2.2 i hi j hj
  · conv_rhs => rw [← hsplit]
    exact List.perm_middle

/-- The numbers of a list of vertices are sorted in. -/
theorem graphAddIndices_spec (g : OwnerGraph) (set : List Nat) : ∀ (indices : List Nat),
    indices.Pairwise (· < ·) → (indices ++ set.map g.vOrder).Nodup →
    (graphAddIndices g indices set).Pairwise (· < ·) ∧
      (graphAddIndices g indices set).Perm (indices ++ set.map g.vOrder) := by
  induction set with
  | nil =>
    intro indices h _
    rw [List.map_nil, List.append_nil]
    exact ⟨h, List.Perm.refl indices⟩
  | cons v set ih =>
    intro indices h hnodup
    rw [List.map_cons, List.nodup_middle, List.nodup_cons, List.mem_append, not_or] at hnodup
    rcases addIndex_spec indices (g.vOrder v) h hnodup.1.1 with ⟨hsorted, hperm⟩
    have hnodup' : (addIndex indices (g.vOrder v) ++ set.map g.vOrder).Nodup := by
      refine ((hperm.append_right _).nodup_iff).mpr ?_
      rw [List.cons_append, List.nodup_cons, List.mem_append, not_or]
      exact hnodup
    rcases ih _ hsorted hnodup' with ⟨hs, hp⟩
    refine ⟨hs, hp.trans ?_⟩
    exact (hperm.append_right _).trans List.perm_middle.symm

theorem vlowest_spec (vOrder : Nat → Nat) (set : List Nat) (hne : set ≠ []) :
    ∃ v, vlowest vOrder set = some v ∧ v ∈ set ∧ ∀ w ∈ set, vOrder v ≤ vOrder w := by
  induction set with
  | nil => exact absurd rfl hne
  | cons u set ih =>
    unfold vlowest
    rcases hset : set with _ | ⟨w, rest⟩
    · exact ⟨u, rfl, List.mem_singleton_self u, fun w hw => by rw [List.mem_singleton.mp hw]⟩
    rw [← hset]
    rcases ih (by simp [hset]) with ⟨v, hv, hin, hmin⟩
    rw [hv]
    by_cases hlt : vOrder v < vOrder u
    · simp only [if_pos hlt]
      refine ⟨v, rfl, List.mem_cons_of_mem u hin, fun w hw => ?_⟩
      rcases List.mem_cons.mp hw with rfl | hw
      · exact le_of_lt hlt
      · exact hmin w hw
    simp only [if_neg hlt]
    refine ⟨u, rfl, List.mem_cons_self .., fun w hw => ?_⟩
    rcases List.mem_cons.mp hw with rfl | hw
    · exact le_rfl
    · have := hmin w hw
      omega

/-- The numbers go to the vertices of the list in increasing order. -/
theorem graphAssignIndices_spec (n : Nat) : ∀ (g : OwnerGraph) (indices set : List Nat),
    set.length = n → n ≤ indices.length → set.Nodup →
    (∀ v ∈ set, ∀ w ∈ set, g.vOrder v = g.vOrder w → v = w) →
    ∃ vs, vs.Perm set ∧ Lib.Sorted g.vOrder vs ∧ graphAssignIndices n g indices set =
      ({ g with vOrder := Lib.reassign g.vOrder vs (indices.take n),
                gVertices := Lib.reassign g.gVertices (indices.take n) vs }, indices.drop n) := by
  induction n with
  | zero =>
    intro g indices set hlen _ _ _
    rw [List.length_eq_zero_iff.mp hlen]
    exact ⟨[], List.Perm.refl [], List.Pairwise.nil, rfl⟩
  | succ n ih =>
    intro g indices set hlen hle hnodup hinj
    cases indices with
    | nil => simp at hle
    | cons i indices =>
      have hne : set ≠ [] := by
        intro heq
        rw [heq] at hlen
        cases hlen
      rcases vlowest_spec g.vOrder set hne with ⟨v, hv, hin, hmin⟩
      have herase : ∀ w ∈ set.erase v, w ≠ v ∧ w ∈ set := fun w hw =>
        ⟨(hnodup.mem_erase_iff.mp hw).1, List.mem_of_mem_erase hw⟩
      -- The vertices left over still have the numbers they had.
      have hsame : ∀ w ∈ set.erase v, update g.vOrder v i w = g.vOrder w := fun w hw =>
        update_of_ne (herase w hw).1 i g.vOrder
      rcases ih { g with vOrder := update g.vOrder v i,
                         gVertices := update g.gVertices i v } indices (set.erase v)
        (by rw [List.length_erase_of_mem hin, hlen]; rfl) (by simpa using hle)
        (hnodup.erase v) (fun u hu w hw heq => by
          simp only [hsame u hu, hsame w hw] at heq
          exact hinj u (herase u hu).2 w (herase w hw).2 heq) with ⟨vs, hperm, hsorted, heq⟩
      refine ⟨v :: vs, (hperm.cons v).trans (List.perm_cons_erase hin).symm, ?_, ?_⟩
      · refine List.pairwise_cons.mpr ⟨fun w hw => ?_, ?_⟩
        · have hw' := herase w (hperm.mem_iff.mp hw)
          have hle' := hmin w hw'.2
          have hne' : g.vOrder v ≠ g.vOrder w := fun h =>
            hw'.1 (hinj v hin w hw'.2 h).symm
          omega
        refine List.Pairwise.imp_of_mem (fun {a b} ha hb hlt => ?_) hsorted
        simp only [hsame a (hperm.mem_iff.mp ha), hsame b (hperm.mem_iff.mp hb)] at hlt
        exact hlt
      · simp only [graphAssignIndices, hv, heq]
        rfl

/-- The numbers of some vertices handed out again: the array and the order
    numbers still answer each other. -/
theorem Numbered.renumber (h : Numbered g) (B F is : List Nat) (o' slots : Nat → Nat)
    (hB : ∀ v ∈ B, v ∈ g.owners) (hF : ∀ v ∈ F, v ∈ g.owners)
    (hsplit : Lib.Split g.vOrder o' B F is) (hperm : is.Perm (B.map g.vOrder ++ F.map g.vOrder))
    (hslots : is.map slots = B ++ F) (hother : ∀ i, i ∉ is → slots i = g.gVertices i) :
    Numbered { g with vOrder := o', gVertices := slots } := by
  have hmem : ∀ v ∈ B ++ F, v ∈ g.owners := fun v hv => (List.mem_append.mp hv).elim (hB v) (hF v)
  have hold : ∀ v ∈ g.owners, g.vOrder v ∈ is → v ∈ B ++ F := by
    intro v hv hin
    rw [hperm.mem_iff, ← List.map_append, List.mem_map] at hin
    rcases hin with ⟨w, hw, heq⟩
    exact h.inj w v (hmem w hw) hv heq ▸ hw
  have hnew : ∀ v ∈ B ++ F, g.vOrder v ∈ is := fun v hv => by
    rw [hperm.mem_iff, ← List.map_append]
    exact List.mem_map_of_mem hv
  have hval : ∀ v ∈ B ++ F, o' v ∈ is := fun v hv => hsplit.numbers ▸ List.mem_map_of_mem hv
  have hunchanged : ∀ v, v ∉ B ++ F → o' v = g.vOrder v := fun v hv => by
    rw [List.mem_append, not_or] at hv
    exact hsplit.other v hv.1 hv.2
  -- Reading the array at a new number gives the vertex back.
  have hback : ∀ v ∈ B ++ F, slots (o' v) = v := by
    have hcomp : (B ++ F).map (slots ∘ o') = (B ++ F).map id := by
      rw [← List.map_map, hsplit.numbers, hslots, List.map_id]
    exact fun v hv => List.map_inj_left.mp hcomp v hv
  have hslot : ∀ v ∈ g.owners, slots (o' v) = v := by
    intro v hv
    by_cases hin : v ∈ B ++ F
    · exact hback v hin
    · rw [hunchanged v hin, hother _ (fun h' => hin (hold v hv h')), h.slot v hv]
  have hbound : ∀ v ∈ g.owners, o' v < g.gSize := by
    intro v hv
    by_cases hin : v ∈ B ++ F
    · have hv' := hval v hin
      rw [hperm.mem_iff, ← List.map_append, List.mem_map] at hv'
      rcases hv' with ⟨w, hw, heq⟩
      exact heq ▸ h.lt w (hmem w hw)
    · exact hunchanged v hin ▸ h.lt v hv
  have honto : ∀ i, i < g.gSize → slots i ∈ g.owners ∧ o' (slots i) = i := by
    intro i hi
    by_cases hin : i ∈ is
    · rw [← hsplit.numbers, List.mem_map] at hin
      rcases hin with ⟨v, hv, rfl⟩
      rw [hslot v (hmem v hv)]
      exact ⟨hmem v hv, rfl⟩
    rcases h.onto i hi with ⟨howner, horder⟩
    have hout : g.gVertices i ∉ B ++ F := fun hv => hin (horder ▸ hnew _ hv)
    rw [hother i hin, hunchanged _ hout]
    exact ⟨howner, horder⟩
  exact ⟨h.nodup, h.length, hbound, hslot, honto⟩

/-- With what reaches `x` moved before what `y` reaches, every edge still goes
    up. -/
theorem ascending_renumber (h : Ordered g) (x y : Nat) (hlt : g.vOrder y < g.vOrder x)
    (hno : ¬ Reaches g y x) (hx : x ∈ g.owners) (hy : y ∈ g.owners) (B F is : List Nat)
    (o' : Nat → Nat) (hB : ∀ v, v ∈ B ↔ Reaches g v x ∧ g.vOrder y < g.vOrder v)
    (hF : ∀ v, v ∈ F ↔ Reaches g y v ∧ g.vOrder v < g.vOrder x)
    (hsplit : Lib.Split g.vOrder o' B F is) (hperm : is.Perm (B.map g.vOrder ++ F.map g.vOrder))
    (a b : Nat) (hab : Edge g a b) : o' a < o' b := by
  have hup : g.vOrder a < g.vOrder b := by
    rcases hab with ⟨e, he, rfl, rfl⟩
    exact h.ascending e he
  rcases hab.owners h.linked with ⟨ha, hb⟩
  -- The numbers handed out lie between those of the two ends.
  have hnum : ∀ i ∈ is, g.vOrder y ≤ i ∧ i ≤ g.vOrder x := by
    intro i hi
    rw [hperm.mem_iff, List.mem_append, List.mem_map, List.mem_map] at hi
    rcases hi with ⟨v, hv, rfl⟩ | ⟨v, hv, rfl⟩
    · rcases ((hB v).mp hv).1.order h.ascending with rfl | hvx
      · exact ⟨le_of_lt hlt, le_rfl⟩
      · exact ⟨le_of_lt ((hB v).mp hv).2, le_of_lt hvx⟩
    rcases ((hF v).mp hv).1.order h.ascending with rfl | hyv
    · exact ⟨le_rfl, le_of_lt hlt⟩
    · exact ⟨le_of_lt hyv, le_of_lt ((hF v).mp hv).2⟩
  have hval : ∀ v ∈ B ++ F, o' v ∈ is := fun v hv => hsplit.numbers ▸ List.mem_map_of_mem hv
  by_cases haF : a ∈ F
  · have hya := ((hF a).mp haF).1
    by_cases hbF : b ∈ F
    · exact hsplit.snd a haF b hbF hup
    -- `b` is reachable from `y` and not below `x`, so it lies above `x`.
    have hyb : Reaches g y b := hya.tail hab
    have hge : ¬ g.vOrder b < g.vOrder x := fun hlt' => hbF ((hF b).mpr ⟨hyb, hlt'⟩)
    have hbx : b ≠ x := fun heq => hno (heq ▸ hyb)
    have hne : g.vOrder b ≠ g.vOrder x := fun heq => hbx (h.numbered.inj b x hb hx heq)
    have hbB : b ∉ B := fun hin => hno (hyb.trans ((hB b).mp hin).1)
    have hai := (hnum (o' a) (hval a (List.mem_append_right B haF))).2
    rw [hsplit.other b hbB hbF]
    omega
  by_cases hbB : b ∈ B
  · have hbx := ((hB b).mp hbB).1
    have hax : Reaches g a x := Relation.ReflTransGen.head hab hbx
    by_cases haB : a ∈ B
    · exact hsplit.fst a haB b hbB hup
    -- `a` reaches `x` and is not above `y`, so it lies below `y`.
    have hle : ¬ g.vOrder y < g.vOrder a := fun hlt' => haB ((hB a).mpr ⟨hax, hlt'⟩)
    have hay : a ≠ y := fun heq => hno (heq ▸ hax)
    have hne : g.vOrder a ≠ g.vOrder y := fun heq => hay (h.numbered.inj a y ha hy heq)
    have hbi := (hnum (o' b) (hval b (List.mem_append_left F hbB))).1
    rw [hsplit.other a haB haF]
    omega
  -- The remaining edges only get longer.
  have hale : o' a ≤ g.vOrder a := by
    by_cases haB : a ∈ B
    · exact hsplit.down a haB
    · exact le_of_eq (hsplit.other a haB haF)
  have hble : g.vOrder b ≤ o' b := by
    by_cases hbF : b ∈ F
    · exact hsplit.up b hbF
    · exact le_of_eq (hsplit.other b hbB hbF).symm
  omega

/-- Links and numbering are independent of each other. -/
theorem Linked.renumber (h : Linked g) (o' slots : Nat → Nat) :
    Linked { g with vOrder := o', gVertices := slots } :=
  ⟨h.out, h.inn, h.ends, h.onOut, h.onIn, h.nodupOut, h.nodupIn, h.single, h.nodup, h.refs⟩

/-- What an operation that only renumbers may change. -/
def SameButOrder (g g' : OwnerGraph) : Prop :=
  g' = { g with vGen := g'.vGen, gGen := g'.gGen, vOrder := g'.vOrder, gVertices := g'.gVertices }

/-- The numbers are collected, sorted, and given out again. -/
theorem assign_spec (h : Ordered g) (x y : Nat) (hlt : g.vOrder y < g.vOrder x)
    (hno : ¬ Reaches g y x) (hx : x ∈ g.owners) (hy : y ∈ g.owners) (deltaB deltaF : List Nat)
    (hBn : deltaB.Nodup) (hFn : deltaF.Nodup)
    (hB : ∀ v, v ∈ deltaB ↔ Reaches g v x ∧ g.vOrder y < g.vOrder v)
    (hF : ∀ v, v ∈ deltaF ↔ Reaches g y v ∧ g.vOrder v < g.vOrder x) :
    ∃ g₁ indices g₂, graphAssignIndices deltaB.length g
        (graphAddIndices g (graphAddIndices g [] deltaF) deltaB) deltaB = (g₁, indices) ∧
      (graphAssignIndices deltaF.length g₁ indices deltaF).1 = g₂ ∧
      Ordered g₂ ∧ SameButOrder g g₂ ∧ g₂.vOrder x < g₂.vOrder y := by
  have hBo : ∀ v ∈ deltaB, v ∈ g.owners := fun v hv => ((hB v).mp hv).1.owners_left h.linked hx
  have hFo : ∀ v ∈ deltaF, v ∈ g.owners := fun v hv => ((hF v).mp hv).1.owners_right h.linked hy
  have hdisj : ∀ v ∈ deltaB, v ∉ deltaF := fun v hv hv' =>
    hno (((hF v).mp hv').1.trans ((hB v).mp hv).1)
  have hinj : ∀ (l : List Nat), (∀ v ∈ l, v ∈ g.owners) →
      ∀ v ∈ l, ∀ w ∈ l, g.vOrder v = g.vOrder w → v = w :=
    fun l hl v hv w hw heq => h.numbered.inj v w (hl v hv) (hl w hw) heq
  -- All the numbers are different, so sorting them in keeps every one.
  have hnodup : (deltaF.map g.vOrder ++ deltaB.map g.vOrder).Nodup := by
    rw [← List.map_append]
    refine List.Nodup.map_on (fun v hv w hw heq => ?_) (List.nodup_append.mpr
      ⟨hFn, hBn, fun v hv w hw heq => hdisj w hw (heq ▸ hv)⟩)
    have hin : ∀ u ∈ deltaF ++ deltaB, u ∈ g.owners := fun u hu =>
      (List.mem_append.mp hu).elim (hFo u) (hBo u)
    exact h.numbered.inj v w (hin v hv) (hin w hw) heq
  rcases graphAddIndices_spec g deltaF [] List.Pairwise.nil (by
    rw [List.nil_append]; exact (List.nodup_append.mp hnodup).1) with ⟨hs₁, hp₁⟩
  rw [List.nil_append] at hp₁
  rcases graphAddIndices_spec g deltaB _ hs₁ ((hp₁.append_right _).nodup_iff.mpr hnodup) with
    ⟨hs₂, hp₂⟩
  have hperm := hp₂.trans (hp₁.append_right _)
  generalize graphAddIndices g (graphAddIndices g [] deltaF) deltaB = is at hs₂ hperm
  have hlen := hperm.length_eq
  rw [List.length_append, List.length_map, List.length_map] at hlen
  rcases graphAssignIndices_spec deltaB.length g is deltaB rfl (by omega) hBn (hinj deltaB hBo) with
    ⟨B, hBp, hBs, hassign₁⟩
  -- The second list still has its old numbers.
  have hsame : ∀ v ∈ deltaF, Lib.reassign g.vOrder B (is.take deltaB.length) v = g.vOrder v :=
    fun v hv => Lib.reassign_of_notMem B g.vOrder _ v (fun hin => hdisj v (hBp.mem_iff.mp hin) hv)
  rcases graphAssignIndices_spec deltaF.length
    { g with vOrder := Lib.reassign g.vOrder B (is.take deltaB.length),
             gVertices := Lib.reassign g.gVertices (is.take deltaB.length) B }
    (is.drop deltaB.length) deltaF rfl (by rw [List.length_drop]; omega) hFn
    (fun v hv w hw heq => by
      simp only [hsame v hv, hsame w hw] at heq
      exact hinj deltaF hFo v hv w hw heq) with ⟨F, hFp, hFs, hassign₂⟩
  have hFs' : Lib.Sorted g.vOrder F := by
    refine List.Pairwise.imp_of_mem (fun {a b} ha hb hlt' => ?_) hFs
    simp only [hsame a (hFp.mem_iff.mp ha), hsame b (hFp.mem_iff.mp hb)] at hlt'
    exact hlt'
  have htake : (is.drop deltaB.length).take deltaF.length = is.drop deltaB.length := by
    rw [List.take_of_length_le (by rw [List.length_drop]; omega)]
  rw [htake] at hassign₂
  have hpermBF : is.Perm (B.map g.vOrder ++ F.map g.vOrder) :=
    hperm.trans (List.perm_append_comm.trans ((hBp.map _).symm.append (hFp.map _).symm))
  have hsplit := Lib.reassign_split g.vOrder B F is hBs hFs'
    (fun v hv hv' => hdisj v (hBp.mem_iff.mp hv) (hFp.mem_iff.mp hv')) hs₂ hpermBF
  rw [hBp.length_eq] at hsplit
  refine ⟨_, _, _, hassign₁, rfl, ?_⟩
  rw [hassign₂]
  -- The array is filled at the same numbers, vertex by vertex.
  have hisn : is.Nodup := hs₂.imp ne_of_lt
  have hslots : is.map (Lib.reassign (Lib.reassign g.gVertices (is.take deltaB.length) B)
      (is.drop deltaB.length) F) = B ++ F := by
    have hcut := List.nodup_append.mp (List.take_append_drop deltaB.length is ▸ hisn)
    conv_lhs => rw [← List.take_append_drop deltaB.length is, List.map_append]
    rw [List.take_append_drop]
    congr 1
    · rw [← Lib.map_reassign (is.take deltaB.length) g.gVertices B hcut.1
        (by rw [List.length_take, hBp.length_eq]; omega)]
      exact List.map_congr_left (fun i hi => by
        rw [Lib.map_reassign (is.take deltaB.length) g.gVertices B hcut.1
          (by rw [List.length_take, hBp.length_eq]; omega)]
        exact Lib.reassign_of_notMem _ _ F i (fun hin => hcut.2.2 i hi i hin rfl))
    · exact Lib.map_reassign _ _ F hcut.2.1 (by rw [List.length_drop, hFp.length_eq]; omega)
  have hother : ∀ i, i ∉ is → Lib.reassign (Lib.reassign g.gVertices (is.take deltaB.length) B)
      (is.drop deltaB.length) F i = g.gVertices i := fun i hi => by
    rw [Lib.reassign_of_notMem _ _ F i (fun hin => hi (List.mem_of_mem_drop hin)),
      Lib.reassign_of_notMem _ _ B i (fun hin => hi (List.mem_of_mem_take hin))]
  have hasc := ascending_renumber h x y hlt hno hx hy B F is _ (fun v => hBp.mem_iff.trans (hB v))
    (fun v => hFp.mem_iff.trans (hF v)) hsplit hpermBF
  refine ⟨⟨h.linked.renumber _ _, h.numbered.renumber B F is _ _
      (fun v hv => hBo v (hBp.mem_iff.mp hv)) (fun v hv => hFo v (hFp.mem_iff.mp hv)) hsplit hpermBF
      hslots hother, fun e he => hasc _ _ ⟨e, he, rfl, rfl⟩, h.gens, h.genLt, h.space⟩, rfl, ?_⟩
  exact hsplit.apart x (hBp.mem_iff.mpr ((hB x).mpr ⟨Relation.ReflTransGen.refl, hlt⟩)) y
    (hFp.mem_iff.mpr ((hF y).mpr ⟨Relation.ReflTransGen.refl, hlt⟩))

/-- The order is repaired, or `x` was reachable from `y` and only marks have
    changed. -/
theorem reorder_spec (h : Ordered g) (x y : Nat) (hx : x ∈ g.owners) (hy : y ∈ g.owners)
    (hlt : g.vOrder y < g.vOrder x) :
    (Reaches g y x ∧ ∃ g', reorder g x y = some (edeadlk, g') ∧ Ordered g' ∧ SameButMarks g g') ∨
    (¬ Reaches g y x ∧ ∃ g', reorder g x y = some (0, g') ∧ Ordered g' ∧ SameButOrder g g' ∧
      g'.vOrder x < g'.vOrder y) := by
  rcases nextGen_spec h with ⟨hgen, hclean, hsame⟩
  unfold reorder
  generalize nextGen g = n at hgen hclean hsame
  rw [SameButMarks] at hsame
  have hreach : ∀ a b, Reaches n a b ↔ Reaches g a b := fun a b => by rw [hsame]; rfl
  have hxn : x ∈ n.owners := by rw [hsame]; exact hx
  have hyn : y ∈ n.owners := by rw [hsame]; exact hy
  have hltn : n.vOrder y < n.vOrder x := by rw [hsame]; exact hlt
  rcases graphDeltaForward_spec hgen hclean x y hxn hyn hltn with ⟨hmarks, hend⟩
  rcases hfwd : graphDeltaForward n x y with ⟨vGen, outcome⟩
  rw [hfwd] at hmarks hend
  -- The marks of a search never exceed the generation number.
  have hbound : ∀ (marks marks' : Nat → Nat), (∀ v ∈ n.owners, marks v ≤ n.gGen) →
      (∀ v, marks' v = n.gGen ∨ marks' v = marks v) → ∀ v ∈ n.owners, marks' v ≤ n.gGen := by
    intro marks marks' hle hnew v hv
    rcases hnew v with heq | heq
    · exact le_of_eq heq
    · exact heq ▸ hle v hv
  have hgens := hbound n.vGen vGen hgen.gens hmarks
  have hord : Ordered { n with vGen := vGen } := hgen.remark vGen n.gGen hgens hgen.genLt
  rcases hend with ⟨hout, hyx⟩ | ⟨deltaF, hout, hno, hFn, hF, hunmarked⟩
  · simp only at hout
    subst hout
    refine Or.inl ⟨(hreach y x).mp hyx, _, by simp only [hfwd], hord, ?_⟩
    rw [SameButMarks, hsame]
  simp only at hout
  subst hout
  -- What reaches `x` is not marked: the forward search did not come there.
  have hcleanB : ∀ v, Reaches { n with vGen := vGen } v x →
      n.vOrder y < n.vOrder v → vGen v ≠ n.gGen := by
    intro v hvx _ heq
    have hv : v ∉ deltaF := fun hin => hno (((hF v).mp hin).1.trans hvx)
    exact hclean v (Reaches.owners_left hgen.linked hvx hxn) ((hunmarked v hv).symm.trans heq)
  rcases graphDeltaBackward_spec hord x y hxn hltn hcleanB with ⟨hmarksB, deltaB, hoB, hBn, hB⟩
  rcases hbwd : graphDeltaBackward { n with vGen := vGen } x y with ⟨vGenB, outcomeB⟩
  rw [hbwd] at hmarksB hoB
  simp only at hoB
  subst hoB
  have hgensB := hbound vGen vGenB hgens hmarksB
  have hordB : Ordered { n with vGen := vGenB } := hgen.remark vGenB n.gGen hgensB hgen.genLt
  rcases assign_spec hordB x y hltn hno hxn hyn deltaB deltaF hBn hFn hB hF with
    ⟨g₁, indices, g₂, hassign₁, hassign₂, hord₂, hsame₂, hup⟩
  refine Or.inr ⟨fun hyx => hno ((hreach y x).mpr hyx), g₂, ?_, hord₂, ?_, hup⟩
  · simp only [hfwd, hbwd, hassign₁, hassign₂]
  · rw [SameButOrder] at hsame₂ ⊢
    rw [hsame₂, hsame]

/-- One end of the edges: an edge in use is on the list of its end, once, and the lists
    hold nothing else. -/
structure Side (owners edges : List Nat) (lists : Nat → List Nat) (endOf : Nat → Nat) : Prop where
  mem : ∀ v ∈ owners, ∀ e ∈ lists v, e ∈ edges ∧ endOf e = v
  ends : ∀ e ∈ edges, endOf e ∈ owners
  listed : ∀ e ∈ edges, e ∈ lists (endOf e)
  nodup : ∀ v ∈ owners, (lists v).Nodup

theorem linked_iff : Linked g ↔ Side g.owners g.edges g.vOutedges g.eFrom ∧
    Side g.owners g.edges g.vInedges g.eTo ∧
    (∀ e ∈ g.edges, ∀ e' ∈ g.edges, g.eFrom e = g.eFrom e' → g.eTo e = g.eTo e' → e = e') ∧
    g.edges.Nodup ∧ ∀ e ∈ g.edges, 0 < g.eRefs e := by
  constructor
  · intro h
    exact ⟨⟨h.out, fun e he => (h.ends e he).1, h.onOut, h.nodupOut⟩,
      ⟨h.inn, fun e he => (h.ends e he).2, h.onIn, h.nodupIn⟩, h.single, h.nodup, h.refs⟩
  rintro ⟨ho, hi, hsingle, hnodup, hrefs⟩
  exact ⟨ho.mem, hi.mem, fun e he => ⟨ho.ends e he, hi.ends e he⟩, ho.listed, hi.listed, ho.nodup,
    hi.nodup, hsingle, hnodup, hrefs⟩

section Side

variable {owners edges : List Nat} {lists : Nat → List Nat} {endOf : Nat → Nat} {x e : Nat}

/-- A new edge. -/
theorem Side.link (h : Side owners edges lists endOf) (hx : x ∈ owners) (hnew : e ∉ edges) :
    Side owners (e :: edges) (update lists x (e :: lists x)) (update endOf e x) := by
  have hend : ∀ d ∈ edges, update endOf e x d = endOf d := fun d hd =>
    update_of_ne (ne_of_mem_of_not_mem hd hnew) _ _
  have hmem : ∀ v d, d ∈ update lists x (e :: lists x) v ↔ (v = x ∧ d = e) ∨ d ∈ lists v := by
    intro v d
    by_cases hv : v = x
    · rw [hv, update_self, List.mem_cons]
      simp only [true_and]
    · rw [update_of_ne hv]
      simp only [hv, false_and, false_or]
  refine ⟨fun v hv d hd => ?_, fun d hd => ?_, fun d hd => ?_, fun v hv => ?_⟩
  · rcases (hmem v d).mp hd with ⟨rfl, rfl⟩ | hold
    · exact ⟨List.mem_cons_self, update_self ..⟩
    · rcases h.mem v hv d hold with ⟨hin, hf⟩
      exact ⟨List.mem_cons_of_mem e hin, (hend d hin).trans hf⟩
  · rcases List.mem_cons.mp hd with rfl | hin
    · rwa [update_self]
    · rw [hend d hin]
      exact h.ends d hin
  · rw [hmem]
    rcases List.mem_cons.mp hd with rfl | hin
    · exact Or.inl ⟨update_self .., rfl⟩
    · rw [hend d hin]
      exact Or.inr (h.listed d hin)
  by_cases hvx : v = x
  · rw [hvx, update_self, List.nodup_cons]
    exact ⟨fun hin => hnew (h.mem x hx e hin).1, h.nodup x hx⟩
  · rw [update_of_ne hvx]
    exact h.nodup v hv

/-- An edge goes. -/
theorem Side.unlink (h : Side owners edges lists endOf) (hin : e ∈ edges) (hx : endOf e = x)
    (hnodup : edges.Nodup) :
    Side owners (edges.erase e) (update lists x ((lists x).erase e)) endOf := by
  have howner : x ∈ owners := hx ▸ h.ends e hin
  refine ⟨fun v hv d hd => ?_, fun d hd => h.ends d (List.mem_of_mem_erase hd), fun d hd => ?_,
    fun v hv => ?_⟩
  · by_cases hvx : v = x
    · rw [hvx, update_self, (h.nodup x howner).mem_erase_iff] at hd
      rw [hnodup.mem_erase_iff]
      exact ⟨⟨hd.1, (h.mem v hv d (hvx ▸ hd.2)).1⟩, (h.mem v hv d (hvx ▸ hd.2)).2⟩
    rw [update_of_ne hvx] at hd
    rcases h.mem v hv d hd with ⟨hold, hf⟩
    exact ⟨hnodup.mem_erase_iff.mpr ⟨fun heq => hvx (hf.symm.trans (heq ▸ hx)), hold⟩, hf⟩
  · rcases hnodup.mem_erase_iff.mp hd with ⟨hne, hold⟩
    have hon := h.listed d hold
    by_cases hdx : endOf d = x
    · rw [hdx, update_self]
      exact (List.mem_erase_of_ne hne).mpr (hdx ▸ hon)
    · rwa [update_of_ne hdx]
  by_cases hvx : v = x
  · rw [hvx, update_self]
    exact (h.nodup x howner).erase e
  · rw [update_of_ne hvx]
    exact h.nodup v hv

/-- A new vertex has no edges. -/
theorem Side.alloc (h : Side owners edges lists endOf) (hx : x ∉ owners) :
    Side (x :: owners) edges (update lists x []) endOf := by
  have hold : ∀ w ∈ owners, update lists x [] w = lists w := fun w hw =>
    update_of_ne (ne_of_mem_of_not_mem hw hx) _ _
  refine ⟨fun w hw d hd => ?_, fun d hd => List.mem_cons_of_mem x (h.ends d hd), fun d hd => ?_,
    fun w hw => ?_⟩
  · rcases List.mem_cons.mp hw with rfl | hw
    · rw [update_self] at hd
      exact absurd hd List.not_mem_nil
    · exact h.mem w hw d (hold w hw ▸ hd)
  · rw [hold _ (h.ends d hd)]
    exact h.listed d hd
  rcases List.mem_cons.mp hw with rfl | hw
  · rw [update_self]
    exact List.nodup_nil
  · rw [hold w hw]
    exact h.nodup w hw

/-- A vertex without edges goes. -/
theorem Side.free (h : Side owners edges lists endOf) (howners : owners.Nodup)
    (hx : lists x = []) : Side (owners.erase x) edges lists endOf := by
  refine ⟨fun w hw => h.mem w (List.mem_of_mem_erase hw), fun d hd => ?_, h.listed,
    fun w hw => h.nodup w (List.mem_of_mem_erase hw)⟩
  refine howners.mem_erase_iff.mpr ⟨fun heq => ?_, h.ends d hd⟩
  have hon := h.listed d hd
  rw [heq, hx] at hon
  exact absurd hon List.not_mem_nil

end Side

/-- A new edge that goes up. -/
theorem linkEdge_ordered (h : Ordered g) (x y e : Nat) (hx : x ∈ g.owners) (hy : y ∈ g.owners)
    (hnew : e ∉ g.edges) (hup : g.vOrder x < g.vOrder y) (hno : ¬ Edge g x y) :
    Ordered (linkEdge g x y e) := by
  rcases linked_iff.mp h.linked with ⟨ho, hi, hsingle, hnodup, hrefs⟩
  have hne : ∀ d ∈ g.edges, d ≠ e := fun d hd heq => hnew (heq ▸ hd)
  have hfrom : ∀ d ∈ g.edges, update g.eFrom e x d = g.eFrom d := fun d hd =>
    update_of_ne (hne d hd) x g.eFrom
  have hto : ∀ d ∈ g.edges, update g.eTo e y d = g.eTo d := fun d hd =>
    update_of_ne (hne d hd) y g.eTo
  refine ⟨linked_iff.mpr ⟨ho.link hx hnew, hi.link hy hnew, fun d hd d' hd' hf ht => ?_,
    List.nodup_cons.mpr ⟨hnew, hnodup⟩, fun d hd => ?_⟩, { h.numbered with }, fun d hd => ?_,
    h.gens, h.genLt, h.space⟩
  · simp only [linkEdge] at hf ht
    rcases List.mem_cons.mp hd with rfl | hin
    · rcases List.mem_cons.mp hd' with rfl | hin'
      · rfl
      rw [update_self, hfrom d' hin'] at hf
      rw [update_self, hto d' hin'] at ht
      exact absurd ⟨d', hin', hf.symm, ht.symm⟩ hno
    rcases List.mem_cons.mp hd' with rfl | hin'
    · rw [update_self, hfrom d hin] at hf
      rw [update_self, hto d hin] at ht
      exact absurd ⟨d, hin, hf, ht⟩ hno
    rw [hfrom d hin, hfrom d' hin'] at hf
    rw [hto d hin, hto d' hin'] at ht
    exact hsingle d hin d' hin' hf ht
  · simp only [linkEdge]
    rcases List.mem_cons.mp hd with rfl | hin
    · rw [update_self]
      exact Nat.zero_lt_one
    · rw [update_of_ne (hne d hin)]
      exact hrefs d hin
  simp only [linkEdge]
  rcases List.mem_cons.mp hd with rfl | hin
  · rw [update_self, update_self]
    exact hup
  · rw [hfrom d hin, hto d hin]
    exact h.ascending d hin

/-- Looking for an edge among those that leave a vertex. -/
theorem find_edge (h : Linked g) (x y : Nat) (hx : x ∈ g.owners) :
    ((g.vOutedges x).find? (fun e => g.eTo e == y) = none ↔ ¬ Edge g x y) ∧
      ∀ e, (g.vOutedges x).find? (fun e => g.eTo e == y) = some e →
        e ∈ g.edges ∧ g.eFrom e = x ∧ g.eTo e = y := by
  refine ⟨?_, fun e he => ?_⟩
  · rw [List.find?_eq_none]
    refine ⟨fun hnone hedge => ?_, fun hno e he heq => ?_⟩
    · rcases hedge with ⟨e, he, hf, ht⟩
      exact hnone e (hf ▸ h.onOut e he) (beq_iff_eq.mpr ht)
    · exact hno ⟨e, (h.out x hx e he).1, (h.out x hx e he).2, beq_iff_eq.mp heq⟩
  have hin := List.mem_of_find?_eq_some he
  have hto := List.find?_some he
  exact ⟨(h.out x hx e hin).1, (h.out x hx e hin).2, beq_iff_eq.mp hto⟩

/-- Reference counts may change as long as they stay positive. -/
theorem Ordered.recount (h : Ordered g) (refs : Nat → Nat) (hrefs : ∀ e ∈ g.edges, 0 < refs e) :
    Ordered { g with eRefs := refs } :=
  ⟨{ h.linked with refs := hrefs }, { h.numbered with }, h.ascending, h.gens, h.genLt, h.space⟩

/-- `graph_add_edge` refuses an edge exactly where it would close a cycle, and
    then changes nothing but marks. -/
theorem graphAddEdge_spec (h : Ordered g) (x y e : Nat) (hx : x ∈ g.owners) (hy : y ∈ g.owners)
    (hxy : x ≠ y) (hnew : e ∉ g.edges) :
    ∃ error g', graphAddEdge g x y e = some (error, g') ∧ Ordered g' ∧
      (error = edeadlk ↔ Reaches g y x) ∧ (error = edeadlk → SameButMarks g g') := by
  rcases find_edge h.linked x y hx with ⟨hnone, hsome⟩
  -- An edge upwards leaves no way back.
  have hback : g.vOrder x < g.vOrder y → ¬ Reaches g y x := by
    intro hlt hyx
    rcases hyx.order h.ascending with heq | hlt'
    · exact hxy heq.symm
    · exact Nat.lt_asymm hlt hlt'
  unfold graphAddEdge
  rcases hfind : (g.vOutedges x).find? (fun e => g.eTo e == y) with _ | e'
  · have hno := hnone.mp hfind
    by_cases hlt : g.vOrder y < g.vOrder x
    · simp only [if_pos hlt]
      rcases reorder_spec h x y hx hy hlt with
        ⟨hyx, g', hre, hord, hsame⟩ | ⟨hno', g', hre, hord, hsame, hup⟩
      · rw [hre]
        exact ⟨edeadlk, g', rfl, hord, ⟨fun _ => hyx, fun _ => rfl⟩, fun _ => hsame⟩
      rw [hre]
      simp only [ne_eq, not_true_eq_false, if_false, if_pos hup]
      rw [SameButOrder] at hsame
      refine ⟨0, _, rfl, linkEdge_ordered hord x y e (by rw [hsame]; exact hx)
        (by rw [hsame]; exact hy) (by rw [hsame]; exact hnew) hup (by rw [hsame]; exact hno), ?_,
        nofun⟩
      exact ⟨nofun, fun hyx => absurd hyx hno'⟩
    have hup : g.vOrder x < g.vOrder y := by
      have hne : g.vOrder x ≠ g.vOrder y := fun heq => hxy (h.numbered.inj x y hx hy heq)
      omega
    simp only [if_neg hlt, ne_eq, not_true_eq_false, if_false, if_pos hup]
    exact ⟨0, _, rfl, linkEdge_ordered h x y e hx hy hnew hup hno,
      ⟨nofun, fun hyx => absurd hyx (hback hup)⟩, nofun⟩
  rcases hsome e' hfind with ⟨hin, hf, ht⟩
  have hup := h.ascending e' hin
  rw [hf, ht] at hup
  refine ⟨0, _, rfl, h.recount _ (fun d hd => ?_),
    ⟨nofun, fun hyx => absurd hyx (hback hup)⟩, nofun⟩
  by_cases hd' : d = e'
  · rw [hd', update_self]
    exact Nat.succ_pos _
  · rw [update_of_ne hd']
    exact h.linked.refs d hd

end FreeBSDKern.Lockf
