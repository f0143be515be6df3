import Mathlib

/-!
# Searching with Generation Marks

A breadth first search that grows a list while it walks along it. Vertices
carry the number of the last search that met them, so a search marks with its
own number and never has to clear what earlier ones left behind. It takes only
vertices of a region, and it may be told to give up as soon as it sees a vertex
of a certain kind.

The root of the search is on the list from the start but is never marked, and
marks may already stand where the search does not come. Both are in the
hypotheses of `search_spec`: the root must not be met again, and what can be
reached must be unmarked at the beginning.

## Main definitions

* `scanEdges`: Looking at the neighbours of one vertex.
* `search`: The whole walk.
* `Step`: One step inside the region.

## Theorems

* `scanEdges_spec`: What one vertex adds to the list.
* `search_spec`: The search finds what can be reached, or gives up where a
  forbidden vertex can be.
-/

namespace FreeBSDKern.Lib

open Function

variable {V : Type*} [DecidableEq V]

/-- How a search ends: a forbidden vertex was seen, the fuel ran out, or the
    list is complete. -/
inductive Outcome (V : Type*) where
  | forbidden
  | stuck
  | found (delta : List V)

/-- The neighbours of one vertex: those of the region that carry no mark are
    marked and collected. `none` is a forbidden one. -/
def scanEdges (gen : Nat) (stop region : V → Bool) :
    (V → Nat) → List V → List V → (V → Nat) × Option (List V)
  | marks, [], added => (marks, some added)
  | marks, w :: ws, added =>
    if stop w then (marks, none)
    else if region w ∧ marks w ≠ gen then
      scanEdges gen stop region (update marks w gen) ws (added ++ [w])
    else scanEdges gen stop region marks ws added

/-- Walk along the list, appending what each vertex adds to it. -/
def search (gen : Nat) (stop region : V → Bool) (next : V → List V) :
    Nat → (V → Nat) → List V → List V → (V → Nat) × Outcome V
  | _, marks, done, [] => (marks, .found done)
  | 0, marks, _, _ :: _ => (marks, .stuck)
  | fuel + 1, marks, done, v :: todo =>
    match scanEdges gen stop region marks (next v) [] with
    | (marks', none) => (marks', .forbidden)
    | (marks', some added) =>
      search gen stop region next fuel marks' (done ++ [v]) (todo ++ added)

/-- One step of the walk, to a neighbour in the region. -/
def Step (region : V → Bool) (next : V → List V) (v w : V) : Prop := w ∈ next v ∧ region w = true

/-- What one vertex adds: its unmarked neighbours of the region, each once. -/
theorem scanEdges_spec (gen : Nat) (stop region : V → Bool) (ws : List V) :
    ∀ (marks : V → Nat) (added : List V),
      ((scanEdges gen stop region marks ws added).2 = none ↔ ∃ w ∈ ws, stop w = true) ∧
      (∀ w, (scanEdges gen stop region marks ws added).1 w = gen ∨
        (scanEdges gen stop region marks ws added).1 w = marks w) ∧
      ∀ l, (scanEdges gen stop region marks ws added).2 = some l →
        ∃ new, l = added ++ new ∧ new.Nodup ∧
          (∀ w, w ∈ new ↔ w ∈ ws ∧ region w = true ∧ marks w ≠ gen) ∧
          ∀ w, (scanEdges gen stop region marks ws added).1 w = if w ∈ new then gen else marks w := by
  induction ws with
  | nil =>
    intro marks added
    refine ⟨by simp [scanEdges], fun w => Or.inr rfl, fun l hl => ⟨[], ?_, List.nodup_nil, ?_, ?_⟩⟩
    · simp only [scanEdges, Option.some.injEq] at hl
      rw [← hl, List.append_nil]
    · intro w
      simp only [List.not_mem_nil, false_and]
    · intro w
      simp only [scanEdges, List.not_mem_nil, if_false]
  | cons u ws ih =>
    intro marks added
    unfold scanEdges
    by_cases hstop : stop u = true
    · rw [if_pos hstop]
      exact ⟨⟨fun _ => ⟨u, List.mem_cons_self .., hstop⟩, fun _ => rfl⟩, fun w => Or.inr rfl,
        fun l hl => by cases hl⟩
    rw [if_neg hstop]
    have hexists : (∃ w ∈ u :: ws, stop w = true) ↔ ∃ w ∈ ws, stop w = true := by
      simp only [List.exists_mem_cons_iff, hstop, Bool.false_eq_true, false_or]
    rw [hexists]
    by_cases htake : region u = true ∧ marks u ≠ gen
    · rw [if_pos htake]
      rcases ih (update marks u gen) (added ++ [u]) with ⟨hnone, hold, hsome⟩
      refine ⟨hnone, fun w => ?_, fun l hl => ?_⟩
      · rcases hold w with hg | ho
        · exact Or.inl hg
        by_cases hw : w = u
        · rw [hw, update_self] at ho
          exact Or.inl (hw ▸ ho)
        · rw [update_of_ne hw] at ho
          exact Or.inr ho
      -- The neighbour is marked now, so the rest of the scan passes it by.
      rcases hsome l hl with ⟨new, hl', hnodup, hmem, hmarks⟩
      have hu : u ∉ new := by
        intro hin
        exact ((hmem u).mp hin).2.2 (update_self ..)
      refine ⟨u :: new, by rw [hl', List.append_assoc]; rfl, List.nodup_cons.mpr ⟨hu, hnodup⟩,
        fun w => ?_, fun w => ?_⟩
      · rw [List.mem_cons, List.mem_cons, hmem w]
        by_cases hw : w = u
        · simp only [hw, true_or, true_and]
          exact ⟨fun _ => htake, fun _ => trivial⟩
        · rw [update_of_ne hw]
          simp only [hw, false_or]
      rw [hmarks w]
      by_cases hw : w = u
      · simp only [hw, hu, if_false, update_self, List.mem_cons, true_or, if_true]
      · simp only [List.mem_cons, hw, false_or, update_of_ne hw]
    rw [if_neg htake]
    rcases ih marks added with ⟨hnone, hold, hsome⟩
    refine ⟨hnone, hold, fun l hl => ?_⟩
    rcases hsome l hl with ⟨new, hl', hnodup, hmem, hmarks⟩
    refine ⟨new, hl', hnodup, fun w => ?_, hmarks⟩
    rw [hmem w, List.mem_cons]
    refine ⟨fun h => ⟨Or.inr h.1, h.2⟩, fun h => ⟨?_, h.2⟩⟩
    rcases h.1 with hw | hin
    · exact absurd (hw ▸ h.2) htake
    · exact hin

/-- What holds of the list and the marks while the walk goes on. -/
structure Walking (gen : Nat) (stop region : V → Bool) (next : V → List V) (root : V)
    (marks : V → Nat) (done todo : List V) : Prop where
  reached : ∀ v ∈ done ++ todo, Relation.ReflTransGen (Step region next) root v
  nodup : (done ++ todo).Nodup
  root_mem : root ∈ done ++ todo
  marked : ∀ w, Relation.ReflTransGen (Step region next) root w → w ≠ root →
    (marks w = gen ↔ w ∈ done ++ todo)
  closed : ∀ v ∈ done, ∀ w ∈ next v, stop w = false ∧ (region w = true → w ∈ done ++ todo)

variable {gen : Nat} {stop region : V → Bool} {next : V → List V} {root : V}

/-- One vertex more: its unmarked neighbours are what the list lacks. -/
theorem Walking.step (hroot : ∀ v, Relation.ReflTransGen (Step region next) root v → root ∉ next v)
    {marks marks' : V → Nat} {done todo added : List V} {v : V}
    (h : Walking gen stop region next root marks done (v :: todo))
    (hscan : scanEdges gen stop region marks (next v) [] = (marks', some added)) :
    Walking gen stop region next root marks' (done ++ [v]) (todo ++ added) := by
  have hspec := scanEdges_spec gen stop region (next v) marks []
  rw [hscan] at hspec
  rcases hspec with ⟨hnone, -, hsome⟩
  rcases hsome added rfl with ⟨new, hnew, hnodup, hmem, hmarks⟩
  rw [List.nil_append] at hnew
  subst hnew
  have hv : Relation.ReflTransGen (Step region next) root v := h.reached v (by simp)
  have hreach : ∀ w ∈ added, Relation.ReflTransGen (Step region next) root w := fun w hw =>
    hv.tail ⟨((hmem w).mp hw).1, ((hmem w).mp hw).2.1⟩
  have hneq : ∀ w ∈ added, w ≠ root := fun w hw heq => hroot v hv (heq ▸ ((hmem w).mp hw).1)
  -- What is new was not on the list, being unmarked.
  have hdisj : ∀ w ∈ added, w ∉ done ++ v :: todo := fun w hw hin =>
    ((hmem w).mp hw).2.2 ((h.marked w (hreach w hw) (hneq w hw)).mpr hin)
  have hsplit : ∀ w, w ∈ done ++ [v] ++ (todo ++ added) ↔ w ∈ done ++ v :: todo ∨ w ∈ added := by
    intro w
    simp only [List.mem_append, List.mem_cons, List.not_mem_nil, or_false, or_assoc]
  refine ⟨fun w hw => ?_, ?_, ?_, fun w hw hne => ?_, fun u hu w hw => ?_⟩
  · rcases (hsplit w).mp hw with hold | hnew
    · exact h.reached w hold
    · exact hreach w hnew
  · have heq : done ++ [v] ++ (todo ++ added) = (done ++ v :: todo) ++ added := by
      simp only [List.append_assoc, List.cons_append, List.nil_append]
    rw [heq, List.nodup_append]
    exact ⟨h.nodup, hnodup, fun a ha b hb hab => hdisj b hb (hab ▸ ha)⟩
  · exact (hsplit root).mpr (Or.inl h.root_mem)
  · rw [hsplit w, ← h.marked w hw hne, show marks' w = _ from hmarks w]
    by_cases hin : w ∈ added
    · simp only [hin, if_true, or_true]
    · simp only [hin, if_false, or_false]
  rw [List.mem_append, List.mem_singleton] at hu
  rcases hu with hu | rfl
  · rcases h.closed u hu w hw with ⟨hs, hr⟩
    exact ⟨hs, fun hreg => (hsplit w).mpr (Or.inl (hr hreg))⟩
  have hs : stop w = false := by
    cases hc : stop w with
    | false => rfl
    | true => exact absurd (hnone.mpr ⟨w, hw, hc⟩) (by simp)
  refine ⟨hs, fun hreg => (hsplit w).mpr ?_⟩
  by_cases hmark : marks w = gen
  · exact Or.inl ((h.marked w (hv.tail ⟨hw, hreg⟩) (fun heq => hroot u hv (heq ▸ hw))).mp hmark)
  · exact Or.inr ((hmem w).mpr ⟨hw, hreg, hmark⟩)

/-- What a search comes to. -/
def SearchResult (gen : Nat) (stop region : V → Bool) (next : V → List V) (root : V)
    (marks : V → Nat) (r : (V → Nat) × Outcome V) : Prop :=
  (∀ w, r.1 w = gen ∨ r.1 w = marks w) ∧
    ((r.2 = .forbidden ∧ ∃ v w, Relation.ReflTransGen (Step region next) root v ∧ w ∈ next v ∧
      stop w = true) ∨
    ∃ delta, r.2 = .found delta ∧ delta.Nodup ∧
      (∀ v, v ∈ delta ↔ Relation.ReflTransGen (Step region next) root v) ∧
      (∀ v ∈ delta, ∀ w ∈ next v, stop w = false) ∧ ∀ w, w ∉ delta → r.1 w = marks w)

omit [DecidableEq V] in
/-- A walk that has come to the end of its list has found what can be
    reached. -/
theorem Walking.finished {marks : V → Nat} {done : List V}
    (h : Walking gen stop region next root marks done []) :
    SearchResult gen stop region next root marks (marks, .found done) := by
  have hreached := h.reached
  have hnodup := h.nodup
  have hroot := h.root_mem
  have hclosed := h.closed
  rw [List.append_nil] at hreached hnodup hroot
  refine ⟨fun w => Or.inr rfl, Or.inr ⟨done, rfl, hnodup, fun v => ⟨hreached v, fun hv => ?_⟩,
    fun v hv w hw => (hclosed v hv w hw).1, fun w _ => rfl⟩⟩
  -- Along the path, each vertex is on the list because the one before it is.
  induction hv with
  | refl => exact hroot
  | tail _ hstep ih =>
    have hin := (hclosed _ ih _ hstep.1).2 hstep.2
    rwa [List.append_nil] at hin

theorem search_walking (univ : List V)
    (hroot : ∀ v, Relation.ReflTransGen (Step region next) root v → root ∉ next v)
    (huniv : ∀ v, Relation.ReflTransGen (Step region next) root v → v ∈ univ) (fuel : Nat) :
    ∀ (marks : V → Nat) (done todo : List V),
      Walking gen stop region next root marks done todo → univ.length ≤ done.length + fuel →
      SearchResult gen stop region next root marks
        (search gen stop region next fuel marks done todo) := by
  induction fuel with
  | zero =>
    intro marks done todo h hfuel
    cases todo with
    | nil =>
      simp only [search]
      exact h.finished
    | cons v todo =>
      -- The list holds distinct reachable vertices, and there are no more.
      have hlen := (List.subperm_of_subset h.nodup (fun w hw => huniv w (h.reached w hw))).length_le
      simp only [List.length_append, List.length_cons] at hlen
      omega
  | succ fuel ih =>
    intro marks done todo h hfuel
    cases todo with
    | nil =>
      simp only [search]
      exact h.finished
    | cons v todo =>
      have hv : Relation.ReflTransGen (Step region next) root v := h.reached v (by simp)
      have hspec := scanEdges_spec gen stop region (next v) marks []
      simp only [search]
      rcases hscan : scanEdges gen stop region marks (next v) [] with ⟨marks', _ | added⟩
      · rw [hscan] at hspec
        rcases hspec.1.mp rfl with ⟨w, hw, hs⟩
        exact ⟨hspec.2.1, Or.inl ⟨rfl, v, w, hv, hw, hs⟩⟩
      rw [hscan] at hspec
      rcases hspec with ⟨-, hold, hsome⟩
      rcases hsome added rfl with ⟨new, hnew, -, -, hmarks⟩
      rw [List.nil_append] at hnew
      subst hnew
      have hwalk := h.step hroot hscan
      rcases ih marks' (done ++ [v]) (todo ++ added) hwalk (by
        rw [List.length_append, List.length_singleton]; omega) with ⟨hmark, hend⟩
      refine ⟨fun w => ?_, ?_⟩
      · rcases hmark w with hg | ho
        · exact Or.inl hg
        rcases hold w with hg | ho'
        · exact Or.inl (ho.trans hg)
        · exact Or.inr (ho.trans ho')
      rcases hend with hforb | ⟨delta, hd, hnodup, hmem, hstop, hout⟩
      · exact Or.inl hforb
      refine Or.inr ⟨delta, hd, hnodup, hmem, hstop, fun w hw => ?_⟩
      have hnot : w ∉ added := fun hin => hw ((hmem w).mpr (hwalk.reached w (by simp [hin])))
      rw [hout w hw, show marks' w = _ from hmarks w, if_neg hnot]

/-- A search whose root is not met again and whose reachable vertices carry no
    mark finds what can be reached, or gives up where a forbidden vertex can
    be. -/
theorem search_spec (gen : Nat) (stop : V → Bool) (univ : List V)
    (hroot : ∀ v, Relation.ReflTransGen (Step region next) root v → root ∉ next v)
    (huniv : ∀ v, Relation.ReflTransGen (Step region next) root v → v ∈ univ) (marks : V → Nat)
    (hclean : ∀ w, Relation.ReflTransGen (Step region next) root w → w ≠ root → marks w ≠ gen) :
    SearchResult gen stop region next root marks
      (search gen stop region next univ.length marks [] [root]) := by
  refine search_walking univ hroot huniv univ.length marks [] [root] ?_ (by simp)
  refine ⟨fun v hv => ?_, List.nodup_singleton root, List.mem_singleton_self root, fun w hw hne => ?_,
    fun v hv => absurd hv List.not_mem_nil⟩
  · rw [List.nil_append, List.mem_singleton] at hv
    rw [hv]
  · rw [List.nil_append, List.mem_singleton]
    exact ⟨fun h => absurd h (hclean w hw hne), fun h => absurd h hne⟩

end FreeBSDKern.Lib
