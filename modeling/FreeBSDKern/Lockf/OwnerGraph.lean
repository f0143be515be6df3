import FreeBSDKern.Lib.Search

/-!
# The Owner Graph

The graph of lock owners in which the byte-range lock code looks for deadlocks
before it lets a process sleep. Vertices stand for owners, and an edge says
that one waits for a lock of the other; an edge carries a reference for every
lock that gives rise to it.

The graph keeps a topological order up to date. `g_vertices` lists the vertices
so that every edge points up, and `v_order` is a vertex's place in it. An edge
that would point down makes the code look for a path back, and if there is none
it renumbers the vertices between the two ends.

Vertices and edges are structures allocated one by one; here they are numbers,
and their members are functions of these numbers. What the allocator hands out
is an argument of the operations, and the graph keeps track of what is in use.
The queue links of the source only thread the lists of one call and appear as
plain lists.

## Main definitions

* `OwnerGraph`: The graph.
* `graphDeltaForward`: The search from the end of the new edge.
* `graphDeltaBackward`: The search from its beginning.
* `graphAssignIndices`: Giving out order numbers, lowest vertex first.
* `graphAddEdge`: Adding an edge, or refusing it.
* `graphRemoveEdge`, `graphAllocVertex`, `graphFreeVertex`: The others.
-/

namespace FreeBSDKern.Lockf

open Function

structure OwnerGraph where
  /-- The vertex structures in use. -/
  owners : List Nat
  /-- The edge structures in use. -/
  edges : List Nat
  vOrder : Nat → Nat
  vGen : Nat → Nat
  vOutedges : Nat → List Nat
  vInedges : Nat → List Nat
  eFrom : Nat → Nat
  eTo : Nat → Nat
  eRefs : Nat → Nat
  gVertices : Nat → Nat
  gSize : Nat
  gSpace : Nat
  gGen : Nat

/-- The error number of a deadlock. -/
def edeadlk : Nat := 11

def graphInit : OwnerGraph :=
  { owners := [], edges := [], vOrder := fun _ => 0, vGen := fun _ => 0, vOutedges := fun _ => [],
    vInedges := fun _ => [], eFrom := fun _ => 0, eTo := fun _ => 0, eRefs := fun _ => 0,
    gVertices := fun _ => 0, gSize := 0, gSpace := 10, gGen := 0 }

/-- The vertices an edge leads to from `v`. -/
def successors (g : OwnerGraph) (v : Nat) : List Nat := (g.vOutedges v).map g.eTo

/-- The vertices an edge leads from to `v`. -/
def predecessors (g : OwnerGraph) (v : Nat) : List Nat := (g.vInedges v).map g.eFrom

/-- `graph_reaches`: there is a path along the edges. -/
def GraphReaches (g : OwnerGraph) : Nat → Nat → Prop :=
  Relation.ReflTransGen (fun a b => b ∈ successors g a)

/-- `graph_delta_forward`: the vertices below `x` that can be reached from `y`.
    It gives up where it sees `x`. A list of all vertices is long enough for
    any of them. -/
def graphDeltaForward (g : OwnerGraph) (x y : Nat) : (Nat → Nat) × Lib.Outcome Nat :=
  Lib.search g.gGen (fun w => w == x) (fun w => decide (g.vOrder w < g.vOrder x)) (successors g)
    g.gSize g.vGen [] [y]

/-- `graph_delta_backward`: the vertices above `y` that reach `x`. The source
    puts what it finds in front of the list, where the walk goes on. -/
def graphDeltaBackward (g : OwnerGraph) (x y : Nat) : (Nat → Nat) × Lib.Outcome Nat :=
  match Lib.search g.gGen (fun _ => false) (fun w => decide (g.vOrder w > g.vOrder y))
    (predecessors g) g.gSize g.vGen [] [x] with
  | (vGen, .found delta) => (vGen, .found delta.reverse)
  | r => r

/-- One round of `graph_add_indices`: the number goes behind the last one that
    is not larger. -/
def addIndex (indices : List Nat) (order : Nat) : List Nat :=
  (indices.reverse.dropWhile (· > order)).reverse ++
    order :: (indices.reverse.takeWhile (· > order)).reverse

def graphAddIndices (g : OwnerGraph) (indices : List Nat) (set : List Nat) : List Nat :=
  set.foldl (fun indices v => addIndex indices (g.vOrder v)) indices

/-- The vertex of a list with the lowest order number. -/
def vlowest (vOrder : Nat → Nat) : List Nat → Option Nat
  | [] => none
  | v :: set => match vlowest vOrder set with
    | none => some v
    | some w => if vOrder w < vOrder v then some w else some v

/-- `graph_assign_indices`: give the numbers out, lowest vertex first. The
    numbers left over are returned. -/
def graphAssignIndices : Nat → OwnerGraph → List Nat → List Nat → OwnerGraph × List Nat
  | fuel + 1, g, i :: indices, set => match vlowest g.vOrder set with
    | none => (g, i :: indices)
    | some v =>
      graphAssignIndices fuel
        { g with vOrder := update g.vOrder v i,
                 gVertices := update g.gVertices i v } indices (set.erase v)
  | _, g, indices, _ => (g, indices)

/-- A new generation number. Where it wraps around, the marks of all vertices
    are cleared. -/
def nextGen (g : OwnerGraph) : OwnerGraph :=
  let gen := (g.gGen + 1) % 2 ^ 32
  if gen = 0 then
    { g with vGen := (List.range g.gSize).foldl (fun vGen vi =>
               update vGen (g.gVertices vi) 0) g.vGen,
             gGen := 1 }
  else { g with gGen := gen }

/-- The order is repaired for a new edge from `x` to `y`: the vertices that
    reach `x` are moved before those that `y` reaches. -/
def reorder (g : OwnerGraph) (x y : Nat) : Option (Nat × OwnerGraph) :=
  let g := nextGen g
  match graphDeltaForward g x y with
  | (_, .stuck) => none
  | (vGen, .forbidden) => some (edeadlk, { g with vGen := vGen })
  | (vGen, .found deltaF) =>
    let g := { g with vGen := vGen }
    match graphDeltaBackward g x y with
    | (vGen, .found deltaB) =>
      let g := { g with vGen := vGen }
      let indices := graphAddIndices g (graphAddIndices g [] deltaF) deltaB
      let (g, indices) := graphAssignIndices deltaB.length g indices deltaB
      some (0, (graphAssignIndices deltaF.length g indices deltaF).1)
    | _ => none

/-- The new edge structure is linked at both ends. -/
def linkEdge (g : OwnerGraph) (x y e : Nat) : OwnerGraph :=
  { g with edges := e :: g.edges, vOutedges := update g.vOutedges x (e :: g.vOutedges x),
           vInedges := update g.vInedges y (e :: g.vInedges y), eRefs := update g.eRefs e 1,
           eFrom := update g.eFrom e x, eTo := update g.eTo e y }

/-- `graph_add_edge`, with `e` the memory for a new edge. -/
def graphAddEdge (g : OwnerGraph) (x y e : Nat) : Option (Nat × OwnerGraph) :=
  match (g.vOutedges x).find? (fun e => g.eTo e == y) with
  | some e' => some (0, { g with eRefs := update g.eRefs e' (g.eRefs e' + 1) })
  | none =>
    match (if g.vOrder y < g.vOrder x then reorder g x y else some (0, g)) with
    | none => none
    | some (error, g) =>
      if error ≠ 0 then some (error, g)
      else if g.vOrder x < g.vOrder y then some (0, linkEdge g x y e)
      else none

/-- `graph_remove_edge`. -/
def graphRemoveEdge (g : OwnerGraph) (x y : Nat) : Option OwnerGraph :=
  match (g.vOutedges x).find? (fun e => g.eTo e == y) with
  | none => none
  | some e =>
    let g := { g with eRefs := update g.eRefs e (g.eRefs e - 1) }
    if g.eRefs e = 0 then
      some { g with edges := g.edges.erase e,
                    vOutedges := update g.vOutedges x ((g.vOutedges x).erase e),
                    vInedges := update g.vInedges y ((g.vInedges y).erase e) }
    else some g

/-- `graph_alloc_vertex`, with `v` the memory for the vertex. -/
def graphAllocVertex (g : OwnerGraph) (v : Nat) : OwnerGraph :=
  { g with owners := v :: g.owners, gSpace := if g.gSize = g.gSpace then 2 * g.gSpace else g.gSpace,
           vOrder := update g.vOrder v g.gSize, vGen := update g.vGen v g.gGen,
           gVertices := update g.gVertices g.gSize v, gSize := g.gSize + 1,
           vOutedges := update g.vOutedges v [], vInedges := update g.vInedges v [] }

/-- The loop of `graph_free_vertex`, over `n` places from `i` on: each vertex
    moves down by one. -/
def closeGap : Nat → Nat → OwnerGraph → OwnerGraph
  | 0, _, g => g
  | n + 1, i, g =>
    let w := g.gVertices i
    closeGap n (i + 1)
      { g with vOrder := update g.vOrder w (g.vOrder w - 1),
               gVertices := update g.gVertices (i - 1) w }

/-- `graph_free_vertex`. -/
def graphFreeVertex (g : OwnerGraph) (v : Nat) : Option OwnerGraph :=
  if (g.vOutedges v).isEmpty ∧ (g.vInedges v).isEmpty then
    let g := closeGap (g.gSize - (g.vOrder v + 1)) (g.vOrder v + 1) g
    some { g with gSize := g.gSize - 1, owners := g.owners.erase v }
  else none

end FreeBSDKern.Lockf
