import FreeBSDKern.Vmem.Run

/-!
# Intact Arenas

What an arena should be, said of its lists and counters alone: the tags behind a
span fill it, no two free ones are neighbours, every tag is on the list it belongs
to and on no other, and the counters are those of the tags. It follows that
allocations do not overlap and lie inside the spans.

## Main definitions

* `Intact`: What an arena should be.

## Theorems

* `Ok.intact`: The invariant gives it.
* `arena_intact`: Every run in which nothing wraps.
* `rounding_wraps`: A run in which the rounding of an allocation does.
-/

namespace FreeBSDKern.Vmem

open Lib

/-- The busy tags, and the spans, in the order of the queue. -/
def busyTags (vm : Arena) : List Nat := vm.seglist.filter (fun t => (vm.tag t).type = .busy)

def spanTags (vm : Arena) : List Nat := vm.seglist.filter (fun t => isSpan (vm.tag t))

def sizeOf (vm : Arena) (ts : List Nat) : Nat := (ts.map (fun t => (vm.tag t).size)).sum

/-- Two tags do not overlap. -/
def Disjoint (x y : Bt) : Prop := x.start + x.size ≤ y.start ∨ y.start + y.size ≤ x.start

/-- What an arena should be. -/
structure Intact (vm : Arena) : Prop where
  /-- The tags behind each span fill it, and no two free ones are neighbours. -/
  spans : ∃ gs : List (Nat × List Nat), vm.seglist = flat gs ∧ ∀ g ∈ gs,
    isSpan (vm.tag g.1) = true ∧ Tiles vm.tag (vm.quantumMask + 1) (vm.tag g.1).start g.2
      ((vm.tag g.1).start + (vm.tag g.1).size) ∧
    g.2.IsChain (fun x y => ¬ ((vm.tag x).type = .free ∧ (vm.tag y).type = .free))
  once : vm.seglist.Nodup
  /-- The free tags are on the free lists for their sizes, and nothing else is. -/
  free : Bucketed vm.freelist (fun t => t ∈ vm.seglist ∧ (vm.tag t).type = .free)
    (fun t => btFreeheadTofree vm (vm.tag t).size)
  /-- The busy tags are on their hash chains, and nothing else is. -/
  busy : Bucketed vm.hashlist (fun t => t ∈ vm.seglist ∧ (vm.tag t).type = .busy)
    (fun t => btHashhead vm.hashsize (vm.tag t).start)
  inuse : vm.inuse = sizeOf vm (busyTags vm)
  nbusytag : vm.nbusytag = (busyTags vm).length
  size : vm.size = sizeOf vm (spanTags vm)
  /-- Allocations do not overlap. -/
  apart : ∀ x ∈ busyTags vm, ∀ y ∈ busyTags vm, x ≠ y → Disjoint (vm.tag x) (vm.tag y)
  /-- Allocations lie inside the spans. -/
  inside : ∀ x ∈ busyTags vm, ∃ s ∈ spanTags vm, (vm.tag s).start ≤ (vm.tag x).start ∧
    (vm.tag x).start + (vm.tag x).size ≤ (vm.tag s).start + (vm.tag s).size

variable {tag : Nat → Bt} {q x : Nat} {vm : Arena} {gs : List (Nat × List Nat)}

theorem Tiles.sum {ts : List Nat} : ∀ {a e : Nat}, Tiles tag q a ts e →
    a + (ts.map (fun t => (tag t).size)).sum = e := by
  induction ts with
  | nil =>
    intro a e h
    exact h
  | cons t ts ih =>
    intro a e h
    have := ih h.2.2.2.2
    rw [List.map_cons, List.sum_cons]
    omega

/-- Two pieces of a span do not overlap. -/
theorem Tiles.disjoint {ts : List Nat} {a e y : Nat} (h : Tiles tag q a ts e) (hx : x ∈ ts)
    (hy : y ∈ ts) (hne : x ≠ y) : Disjoint (tag x) (tag y) := by
  rcases List.append_of_mem hx with ⟨pre, post, rfl⟩
  rcases Tiles.split.mp h with ⟨hpre, -, -, -, hpost⟩
  rw [List.mem_append, List.mem_cons] at hy
  rcases hy with hy | rfl | hy
  · exact Or.inr (hpre.tile hy).2.2.2
  · exact absurd rfl hne
  · exact Or.inl (hpost.tile hy).2.2.1

theorem not_isSpan {bt : Bt} (h : bt.type = .free ∨ bt.type = .busy) : isSpan bt = false := by
  rcases h with h | h
  · rw [isSpan, h]
    rfl
  · rw [isSpan, h]
    rfl

/-- The busy pieces of spans are not larger than the spans. -/
theorem sum_busy_le {S : Finset Nat} (gs : List (Nat × List Nat)) (h : ∀ g ∈ gs, SpanOk tag q S g) :
    (((flat gs).filter (fun t => (tag t).type = .busy)).map (fun t => (tag t).size)).sum ≤
      (gs.map (fun g => (tag g.1).size)).sum := by
  induction gs with
  | nil => exact Nat.le_refl 0
  | cons g gs ih =>
    have hok := h g List.mem_cons_self
    have hrest := ih (fun g' hg' => h g' (List.mem_cons_of_mem g hg'))
    have hsum := hok.tiles.sum
    have hself : ¬ (tag g.1).type = .busy := fun hb => by
      have := hok.span
      rw [isSpan, hb] at this
      cases this
    have hle : ((g.2.filter (fun t => (tag t).type = .busy)).map (fun t => (tag t).size)).sum ≤
        (g.2.map (fun t => (tag t).size)).sum :=
      (List.filter_sublist.map _).sum_le_sum (fun _ _ => zero_le)
    have hflat : flat (g :: gs) = (g.1 :: g.2) ++ flat gs := rfl
    rw [hflat, List.filter_append, List.filter_cons_of_neg (by simpa using hself), List.map_append,
      List.sum_append, List.map_cons, List.sum_cons]
    omega

/-- The spans of the queue. -/
theorem filter_span {S : Finset Nat} (gs : List (Nat × List Nat)) (h : ∀ g ∈ gs, SpanOk tag q S g) :
    (flat gs).filter (fun t => isSpan (tag t)) = gs.map Prod.fst := by
  induction gs with
  | nil => rfl
  | cons g gs ih =>
    have hok := h g List.mem_cons_self
    have hrest := ih (fun g' hg' => h g' (List.mem_cons_of_mem g hg'))
    have hnone : g.2.filter (fun t => isSpan (tag t)) = [] := by
      rw [List.filter_eq_nil_iff]
      intro t ht
      rw [not_isSpan (hok.tiles.tile ht).1]
      exact Bool.false_ne_true
    have hflat : flat (g :: gs) = (g.1 :: g.2) ++ flat gs := rfl
    rw [hflat, List.filter_append, List.filter_cons_of_pos (by exact hok.span), hnone, hrest]
    rfl

theorem tagsOf_busy (vm : Arena) : tagsOf vm ∅ .busy = (busyTags vm).toFinset := by
  ext t
  rw [mem_tagsOf, List.mem_toFinset, busyTags, List.mem_filter, decide_eq_true_eq]
  exact and_congr_right (fun _ => and_iff_right (Finset.notMem_empty t))

theorem Ok.inuse_eq (h : Ok vm ∅ gs) : vm.inuse = sizeOf vm (busyTags vm) := by
  have hle := sum_busy_le gs h.segs.spans
  have hword := h.segs.word
  rw [h.segs.size] at hword
  rw [← h.segs.seglist] at hle
  have honce : (busyTags vm).Nodup := h.segs.nodup.filter _
  rw [h.listed.inuse, tagsOf_busy, List.sum_toFinset _ honce]
  exact Nat.mod_eq_of_lt (lt_of_le_of_lt hle hword)

/-- A piece and its span. -/
theorem Ok.piece_place (h : Ok vm ∅ gs) (hx : x ∈ vm.seglist) (hspan : isSpan (vm.tag x) = false) :
    ∃ g ∈ gs, x ∈ g.2 := by
  rw [h.segs.seglist, mem_flat] at hx
  rcases hx with ⟨g, hg, rfl | hin⟩
  · rw [(h.segs.spans g hg).span] at hspan
    cases hspan
  · exact ⟨g, hg, hin⟩

/-- Two pieces do not overlap, whether they are of one span or not. -/
theorem Ok.disjoint (h : Ok vm ∅ gs) {y : Nat} (hx : x ∈ vm.seglist)
    (hxs : isSpan (vm.tag x) = false) (hy : y ∈ vm.seglist) (hys : isSpan (vm.tag y) = false)
    (hne : x ≠ y) : Disjoint (vm.tag x) (vm.tag y) := by
  rcases h.piece_place hx hxs with ⟨g, hg, hxin⟩
  rcases h.piece_place hy hys with ⟨g', hg', hyin⟩
  by_cases hgg : g = g'
  · subst hgg
    exact (h.segs.spans g hg).tiles.disjoint hxin hyin hne
  have : Std.Symm (fun g g' : Nat × List Nat => Beside vm.tag g.1 g'.1) :=
    ⟨fun _ _ hb => hb.symm⟩
  have hb := h.segs.beside.forall hg hg' hgg
  have hx' := ((h.segs.spans g hg).tiles.tile hxin).2.2
  have hy' := ((h.segs.spans g' hg').tiles.tile hyin).2.2
  rcases hb with hb | hb
  · exact Or.inl (by omega)
  · exact Or.inr (by omega)

theorem busyTags_spec (hx : x ∈ busyTags vm) : x ∈ vm.seglist ∧ isSpan (vm.tag x) = false := by
  rw [busyTags, List.mem_filter, decide_eq_true_eq] at hx
  exact ⟨hx.1, not_isSpan (Or.inr hx.2)⟩

/-- The invariant makes an arena what it should be. -/
theorem Ok.intact (h : Ok vm ∅ gs) : Intact vm := by
  have hspans : spanTags vm = gs.map Prod.fst := by
    rw [spanTags, h.segs.seglist]
    exact filter_span gs h.segs.spans
  have hdom : ∀ type t, (t ∈ vm.seglist ∧ (vm.tag t).type = type) ↔ t ∈ tagsOf vm ∅ type := by
    intro type t
    rw [mem_tagsOf]
    exact and_congr_right (fun _ => (and_iff_right (Finset.notMem_empty t)).symm)
  refine ⟨⟨gs, h.segs.seglist, fun g hg => ?_⟩, h.segs.nodup, h.listed.free.congr (hdom .free)
    (fun _ _ => rfl), h.listed.busy.congr (hdom .busy) (fun _ _ => rfl), h.inuse_eq, ?_, ?_,
    fun x hx y hy hne => ?_, fun x hx => ?_⟩
  · have hok := h.segs.spans g hg
    refine ⟨hok.span, hok.tiles, List.IsChain.imp (fun x y hno hboth => hno ?_) hok.apart⟩
    exact ⟨⟨Finset.notMem_empty x, hboth.1⟩, Finset.notMem_empty y, hboth.2⟩
  · have honce : (busyTags vm).Nodup := h.segs.nodup.filter _
    rw [h.listed.nbusytag, tagsOf_busy, List.toFinset_card_of_nodup honce]
  · rw [h.segs.size, sizeOf, hspans, List.map_map]
    rfl
  · exact h.disjoint (busyTags_spec hx).1 (busyTags_spec hx).2 (busyTags_spec hy).1
      (busyTags_spec hy).2 hne
  rcases h.piece_place (busyTags_spec hx).1 (busyTags_spec hx).2 with ⟨g, hg, hin⟩
  have htile := (h.segs.spans g hg).tiles.tile hin
  refine ⟨g.1, ?_, htile.2.2.1, htile.2.2.2⟩
  rw [hspans]
  exact List.mem_map_of_mem hg

theorem vmemInit_ok (quantum importQuantum : Nat) (importfn releasefn : Bool)
    (hq : Pow2 quantum) : Ok (vmemInit quantum importQuantum importfn releasefn) ∅ [] := by
  have hnone : ∀ (T : Nat → List Nat) (type : BtType) (key : Nat → Nat), (∀ i, T i = []) →
      Bucketed T (· ∈ tagsOf (vmemInit quantum importQuantum importfn releasefn) ∅ type) key := by
    intro T type key hT
    refine ⟨fun i t => ?_, fun i => by rw [hT i]; exact List.nodup_nil⟩
    rw [hT i]
    exact ⟨fun h => absurd h List.not_mem_nil,
      fun h => absurd (mem_tagsOf.mp h.1).1 List.not_mem_nil⟩
  refine ⟨⟨rfl, List.nodup_nil, nofun, nofun,
    List.Pairwise.nil, rfl, Nat.two_pow_pos 64⟩,
    ⟨hnone _ _ _ (fun _ => rfl), hnone _ _ _ (fun _ => rfl), rfl, rfl⟩, Nat.zero_lt_succ 15, ?_⟩
  change Pow2 (quantum - 1 + 1)
  rw [Nat.sub_add_cancel (Nat.pos_of_ne_zero hq.1)]
  exact hq

/-- In every run in which nothing wraps the arena is what it should be. -/
theorem arena_intact (quantum importQuantum : Nat) (importfn releasefn : Bool) (hq : Pow2 quantum)
    (ops : List Op)
    (hsafe : EveryStep next SafeStep (vmemInit quantum importQuantum importfn releasefn) ops) :
    ∃ vm, runOps next (vmemInit quantum importQuantum importfn releasefn) ops = some vm ∧
      Intact vm := by
  have hstep : ∀ vm op, (∃ gs, Ok vm ∅ gs) → SafeStep vm op →
      ∃ vm', next vm op = some vm' ∧ ∃ gs, Ok vm' ∅ gs := by
    rintro vm op ⟨gs, hok⟩ hs
    rcases exec_ok hok hs with ⟨r, vm', gs', hexec, hok'⟩
    exact ⟨vm', by rw [next, hexec]; rfl, gs', hok'⟩
  rcases runOps_progress_of next SafeStep (fun vm => ∃ gs, Ok vm ∅ gs) hstep ops _
    ⟨[], vmemInit_ok quantum importQuantum importfn releasefn hq⟩ hsafe with ⟨vm, hrun, gs, hok⟩
  exact ⟨vm, hrun, hok.intact⟩

/-- A page is allocated with an alignment and freed, and the imported span it
    came from is released. -/
theorem arena_intact_page : EveryStep next SafeStep (vmemInit 4096 4096 true true)
      [.xalloc ⟨100, 8192, 0, 0, 0, 2 ^ 64 - 1, .firstfit⟩ true, .importSpan 4096 8192 (some 4096),
        .xalloc ⟨100, 8192, 0, 0, 0, 2 ^ 64 - 1, .bestfit⟩ true, .rehash 32 true, .xfree 8192] ∧
    ∃ vm, runOps next (vmemInit 4096 4096 true true)
      [.xalloc ⟨100, 8192, 0, 0, 0, 2 ^ 64 - 1, .firstfit⟩ true, .importSpan 4096 8192 (some 4096),
        .xalloc ⟨100, 8192, 0, 0, 0, 2 ^ 64 - 1, .bestfit⟩ true, .rehash 32 true, .xfree 8192] =
        some vm ∧ Intact vm := by
  have hsafe : EveryStep next SafeStep (vmemInit 4096 4096 true true)
      [.xalloc ⟨100, 8192, 0, 0, 0, 2 ^ 64 - 1, .firstfit⟩ true, .importSpan 4096 8192 (some 4096),
        .xalloc ⟨100, 8192, 0, 0, 0, 2 ^ 64 - 1, .bestfit⟩ true, .rehash 32 true, .xfree 8192] := by
    decide
  exact ⟨hsafe, arena_intact 4096 4096 true true (by decide) _ hsafe⟩

/-- The arena is one page near the end of the address space, and an allocation
    with a larger alignment is made. The rounded address wraps around, and the
    arena hands out an address that lies in no span. -/
theorem rounding_wraps : EveryStep next Valid (vmemInit 4096 4096 false false)
      [.add (2 ^ 64 - 8192) 4096 true, .xalloc ⟨4096, 16384, 0, 0, 0, 2 ^ 64 - 1, .bestfit⟩ true] ∧
    ∃ vm, runOps next (vmemInit 4096 4096 false false)
      [.add (2 ^ 64 - 8192) 4096 true, .xalloc ⟨4096, 16384, 0, 0, 0, 2 ^ 64 - 1, .bestfit⟩ true] =
        some vm ∧ ¬ Intact vm := by
  refine ⟨by decide, (runOps next (vmemInit 4096 4096 false false)
    [.add (2 ^ 64 - 8192) 4096 true, .xalloc ⟨4096, 16384, 0, 0, 0, 2 ^ 64 - 1, .bestfit⟩ true]).get
    (by decide), (Option.some_get _).symm, fun h => ?_⟩
  -- The one allocation is at 16384, and the one span is not there.
  exact absurd h.inside (by decide)

end FreeBSDKern.Vmem
