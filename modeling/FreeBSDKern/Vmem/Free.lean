import FreeBSDKern.Vmem.Clip

/-!
# Freeing an Allocation

A busy tag that is freed is merged with the free tags next to it. What is left
has no free neighbour: those that were free are gone, and behind a free tag there
was none before. If it then fills a span that was imported, and there is a
function to release it, the span leaves the arena; otherwise the tag goes to its
free list.

## Theorems

* `merge_ok`: Two neighbours become one.
* `coalesceNext_ok`, `coalescePrev_ok`: The neighbours of the tag that is freed.
* `releaseOrInsfree_ok`: The end.
* `vmemXfree_ok`: The whole.
-/

namespace FreeBSDKern.Vmem

open Lib Function

variable {vm : Arena} {S : Finset Nat} {G Z : List (Nat × List Nat)} {s bt x : Nat}
  {pre post : List Nat}

/-- The queue without one of its tags. -/
theorem flat_erase {t : Nat} (h : Segs vm S (G ++ (s, pre ++ t :: post) :: Z)) :
    vm.seglist.erase t = flat (G ++ (s, pre ++ post) :: Z) := by
  have hnodup := h.nodup
  rw [h.seglist_at] at hnodup ⊢
  have hnot : t ∉ flat G ++ s :: pre := fun hin =>
    (List.nodup_append.mp hnodup).2.2 t hin t List.mem_cons_self rfl
  rw [erase_split t _ _ hnot, flat_append]
  simp only [List.append_assoc, List.cons_append]

/-- Two neighbours become one. The first of them is `x`, the second `y`; the one
    that stays is worked on. -/
theorem merge_ok {t y : Nat} (h : Ok vm {bt} (G ++ (s, pre ++ x :: y :: post) :: Z))
    (hxy : x = bt ∧ y = t ∨ x = t ∧ y = bt) (ht : (vm.tag t).type = .free) (bb : Bt)
    (hstart : bb.start = (vm.tag x).start) (hsize : bb.size = (vm.tag x).size + (vm.tag y).size)
    (hfree : bb.type = .free) :
    Ok (btRemseg (btRemfree (setTag vm bt bb) t) t) {bt} (G ++ (s, pre ++ bt :: post) :: Z) := by
  rcases h.segs.apart_at with ⟨hnodup, hxpre, hxpost, -, hseg⟩
  have hok := h.segs.spans _ (List.mem_append_cons_self)
  have hsecond : Segs vm {bt} (G ++ (s, (pre ++ [x]) ++ y :: post) :: Z) := by
    rw [List.append_assoc]
    exact h.segs
  -- The two tags differ from each other and from all others.
  have hsplit := List.nodup_append.mp hnodup
  have hne : x ≠ y := fun heq => hxpost (heq ▸ List.mem_cons_self)
  have hypre : y ∉ pre := fun hin =>
    hsplit.2.2 y hin y (List.mem_cons_of_mem x List.mem_cons_self) rfl
  have hypost : y ∉ post := (List.nodup_cons.mp (List.nodup_cons.mp hsplit.2.1).2).1
  have hxpost' : x ∉ post := fun hin => hxpost (List.mem_cons_of_mem y hin)
  have hbt : bt ∉ pre ∧ bt ∉ post ∧ t ≠ bt := by
    rcases hxy with ⟨rfl, rfl⟩ | ⟨rfl, rfl⟩
    · exact ⟨hxpre, hxpost', hne.symm⟩
    · exact ⟨hypre, hypost, hne⟩
  have hmem : bt ∈ pre ++ x :: y :: post := by
    rcases hxy with ⟨rfl, rfl⟩ | ⟨rfl, rfl⟩
    · exact List.mem_append_cons_self
    · exact List.mem_append_right _ (List.mem_cons_of_mem _ List.mem_cons_self)
  have hother : ∀ u, u ≠ bt → (setTag vm bt bb).tag u = vm.tag u :=
    fun u hu => update_of_ne hu _ _
  have hself : (setTag vm bt bb).tag bt = bb := update_self _ _ _
  have hsne : s ≠ bt := by
    rcases hxy with ⟨rfl, rfl⟩ | ⟨rfl, rfl⟩
    · exact h.segs.span_at.2
    · exact hsecond.span_at.2
  have hbin : bt ∈ ({bt} : Finset Nat) := Finset.mem_singleton_self bt
  have hqueue : vm.seglist.erase t = flat (G ++ (s, pre ++ bt :: post) :: Z) := by
    rcases hxy with ⟨rfl, rfl⟩ | ⟨rfl, rfl⟩
    · rw [flat_erase hsecond, List.append_assoc]
      rfl
    · exact flat_erase h.segs
  have htnot : t ∉ ({bt} : Finset Nat) := by
    rw [Finset.mem_singleton]
    exact hbt.2.2
  refine ⟨?_, ?_, h.hashsize, h.quantum⟩
  · refine h.segs.replace hqueue ?_ (fun u hu => Or.inl ?_) le_rfl rfl rfl
      (fun u _ hnot => ⟨hother u ?_, Iff.rfl⟩) (hok.refill (hother s hsne) ?_ ?_)
    · exact List.nodup_append.mpr ⟨hsplit.1, List.nodup_cons.mpr ⟨hbt.2.1,
        (List.nodup_cons.mp (List.nodup_cons.mp hsplit.2.1).2).2⟩, fun u hu v hv heq => by
          subst heq
          rcases List.mem_cons.mp hv with rfl | hv
          · exact hbt.1 hu
          · exact hsplit.2.2 u hu u (List.mem_cons_of_mem _ (List.mem_cons_of_mem _ hv)) rfl⟩
    · rcases List.mem_append.mp hu with hu | hu
      · exact List.mem_append_left _ hu
      rcases List.mem_cons.mp hu with rfl | hu
      · exact hmem
      · exact List.mem_append_right _ (List.mem_cons_of_mem _ (List.mem_cons_of_mem _ hu))
    · rintro rfl
      exact hnot hmem
    · rcases Tiles.split.mp hok.tiles with ⟨hpre, hxpos, hxq, -, hyt⟩
      rw [Tiles] at hyt
      rcases hyt with ⟨hystart, hypos, hyq, -, hpost⟩
      change Tiles (setTag vm bt bb).tag _ _ _ _
      rw [Tiles.split, hself, hstart, hsize, ← Nat.add_assoc]
      exact ⟨hpre.congr (fun u hu => hother u (fun heq => hbt.1 (heq ▸ hu))), by omega,
        Nat.dvd_add hxq hyq, Or.inl hfree,
        hpost.congr (fun u hu => hother u (fun heq => hbt.2.1 (heq ▸ hu)))⟩
    rcases apart_middle.mp hok.apart with ⟨hapre, hapost, -⟩
    have hapost' := (apart_cons.mp (apart_cons.mp hapost).1).1
    exact apart_middle.mpr ⟨hapre.congr (fun u hu =>
        ⟨hother u (fun heq => hbt.1 (heq ▸ hu)), fun hin => hin⟩),
      apart_cons.mpr ⟨hapost'.congr (fun u hu =>
        ⟨hother u (fun heq => hbt.2.1 (heq ▸ hu)), fun hin => hin⟩),
        fun hf => absurd hbin hf.1⟩, fun hf => absurd hbin hf.1⟩
  have herase : ({bt} : Finset Nat) = (insert t {bt} : Finset Nat).erase t :=
    (Finset.erase_insert htnot).symm
  rw [herase]
  refine ((h.listed.setTag hbin bb).remfree ?_).remseg (Finset.mem_insert_self _ _) h.segs.nodup
  rw [hother t hbt.2.2]
  exact ht

/-- Two neighbours together are not larger than a word. -/
theorem Segs.sum_at {y : Nat} (h : Segs vm S (G ++ (s, pre ++ x :: y :: post) :: Z)) :
    (vm.tag x).size + (vm.tag y).size < 2 ^ 64 := by
  have hok := h.spans _ (List.mem_append_cons_self)
  rcases Tiles.split.mp hok.tiles with ⟨hpre, -, -, -, hyt⟩
  rw [Tiles] at hyt
  have hlo := hpre.le
  have hhi := hyt.2.2.2.2.le
  have hword := hok.word
  simp only at hlo hhi hword
  omega

theorem isSpan_type {bt : Bt} (h : isSpan bt = true) : bt.type ≠ .free := by
  intro hfree
  rw [isSpan, hfree] at h
  cases h

section

variable (h : Ok vm {bt} (G ++ (s, pre ++ bt :: post) :: Z)) (hfree : (vm.tag bt).type = .free)
include h hfree

theorem coalesceNext_ok :
    ∃ post', Ok (coalesceNext vm bt) {bt} (G ++ (s, pre ++ bt :: post') :: Z) ∧
      ((coalesceNext vm bt).tag bt).type = .free ∧
      ∀ p ∈ post'.head?, ((coalesceNext vm bt).tag p).type ≠ .free := by
  rcases h.segs.apart_at with ⟨hnodup, -, hbtpost, -, -⟩
  have hall := h.segs.nodup
  rw [h.segs.seglist_at] at hall
  have hnot : bt ∉ flat G ++ s :: pre := fun hin =>
    (List.nodup_append.mp hall).2.2 bt hin bt List.mem_cons_self rfl
  have hnext : next? vm.seglist bt = (post ++ flat Z).head? := by
    rw [h.segs.seglist_at]
    exact next?_split bt _ _ hnot
  unfold coalesceNext
  rw [hnext]
  cases post with
  | nil =>
    -- Behind the last piece of a span there is another span, or nothing.
    rw [List.nil_append]
    cases Z with
    | nil => exact ⟨[], h, hfree, nofun⟩
    | cons z Z =>
      have hspan := (h.segs.spans z (List.mem_append_right _
        (List.mem_cons_of_mem _ List.mem_cons_self))).span
      have hhead : (flat (z :: Z)).head? = some z.1 := rfl
      rw [hhead]
      simp only [if_neg (isSpan_type hspan)]
      exact ⟨[], h, hfree, nofun⟩
  | cons t post =>
    rw [List.cons_append, List.head?_cons]
    by_cases ht : (vm.tag t).type = .free
    · simp only [if_pos ht]
      rw [wadd_eq h.segs.sum_at]
      have hbt : t ≠ bt := fun heq => hbtpost (heq ▸ List.mem_cons_self)
      refine ⟨post, merge_ok h (Or.inl ⟨rfl, rfl⟩) ht _ rfl rfl hfree, ?_, fun p hp => ?_⟩
      · change (update vm.tag bt _ bt).type = _
        rw [update_self]
        exact hfree
      -- Behind a free tag there was no other.
      have hpin := List.mem_of_mem_head? hp
      have hpbt : p ≠ bt := fun heq => hbtpost (heq ▸ List.mem_cons_of_mem t hpin)
      change (update vm.tag bt _ p).type ≠ _
      rw [update_of_ne hpbt]
      have hok := h.segs.spans _ (List.mem_append_cons_self)
      have hchain := (apart_cons.mp (apart_middle.mp hok.apart).2.1).1
      have hS : ∀ u, u ≠ bt → u ∉ ({bt} : Finset Nat) := fun u hu hin =>
        hu (Finset.mem_singleton.mp hin)
      intro htype
      exact (apart_cons.mp hchain).2 ⟨hS t hbt, ht⟩ p hp ⟨hS p hpbt, htype⟩
    simp only [if_neg ht]
    refine ⟨t :: post, h, hfree, fun p hp => ?_⟩
    rw [List.head?_cons, Option.mem_some_iff] at hp
    exact hp ▸ ht

theorem coalescePrev_ok (hhead : ∀ p ∈ post.head?, (vm.tag p).type ≠ .free) :
    ∃ pre', Ok (coalescePrev vm bt) {bt} (G ++ (s, pre' ++ bt :: post) :: Z) ∧
      ((coalescePrev vm bt).tag bt).type = .free ∧
      (∀ p ∈ pre'.getLast?, ((coalescePrev vm bt).tag p).type ≠ .free) ∧
      ∀ p ∈ post.head?, ((coalescePrev vm bt).tag p).type ≠ .free := by
  rcases h.segs.apart_at with ⟨hnodup, hbtpre, hbtpost, -, -⟩
  have hall := h.segs.nodup
  rw [h.segs.seglist_at] at hall
  rcases insert_before (List.append_ne_nil_of_right_ne_nil _ (List.cons_ne_nil s pre)) hall with
    ⟨t, hlast, hprev, -⟩
  rw [← h.segs.seglist_at] at hprev
  have hok := h.segs.spans _ (List.mem_append_cons_self)
  unfold coalescePrev
  rw [hprev]
  rcases List.eq_nil_or_concat pre with rfl | ⟨pre, u, rfl⟩
  · -- Before the first piece there is its span.
    rw [List.getLast?_concat, Option.some.injEq] at hlast
    subst hlast
    simp only [if_neg (isSpan_type hok.span)]
    exact ⟨[], h, hfree, nofun, hhead⟩
  rw [List.concat_eq_append] at h hbtpre hlast hok
  rw [← List.cons_append, ← List.append_assoc, List.getLast?_concat, Option.some.injEq] at hlast
  subst hlast
  have hubt : u ≠ bt := fun heq => hbtpre (heq ▸ List.mem_append_cons_self)
  by_cases ht : (vm.tag u).type = .free
  · simp only [if_pos ht]
    have h' : Ok vm {bt} (G ++ (s, pre ++ u :: bt :: post) :: Z) := by
      rw [List.append_assoc] at h
      exact h
    have hsum := h'.segs.sum_at
    rw [Nat.add_comm] at hsum
    rw [wadd_eq hsum]
    have hkeep : ∀ p, p ≠ bt → ∀ b, (btRemseg (btRemfree (setTag vm bt b) u) u).tag p = vm.tag p :=
      fun p hp b => update_of_ne hp _ _
    refine ⟨pre, merge_ok h' (Or.inr ⟨rfl, rfl⟩) ht _ rfl (Nat.add_comm _ _) hfree, ?_,
      fun p hp => ?_, fun p hp => ?_⟩
    · change (update vm.tag bt _ bt).type = _
      rw [update_self]
      exact hfree
    · -- Before a free tag there was no other.
      have hpbt : p ≠ bt := fun heq =>
        hbtpre (heq ▸ List.mem_append_left _ (List.mem_of_mem_getLast? hp))
      rw [hkeep p hpbt]
      have hchain := (h'.segs.spans _ (List.mem_append_cons_self)).apart
      have hS : ∀ v, v ≠ bt → v ∉ ({bt} : Finset Nat) := fun v hv hin =>
        hv (Finset.mem_singleton.mp hin)
      intro htype
      exact (apart_middle.mp hchain).2.2 ⟨hS u hubt, ht⟩ p hp ⟨hS p hpbt, htype⟩
    · rw [hkeep p (fun heq => hbtpost (heq ▸ List.mem_of_mem_head? hp))]
      exact hhead p hp
  simp only [if_neg ht]
  refine ⟨pre ++ [u], h, hfree, fun p hp => ?_, hhead⟩
  rw [List.getLast?_concat, Option.mem_some_iff] at hp
  exact hp ▸ ht

end

/-- Spans are on no list, so it does not matter whether one is worked on. -/
theorem listed_span (hx : isSpan (vm.tag x) = true) : Listed vm (insert x S) ↔ Listed vm S := by
  have hfree : tagsOf vm (insert x S) .free = tagsOf vm S .free := by
    refine tagsOf_insert_of_ne _ (fun heq => ?_)
    rw [isSpan, heq] at hx
    cases hx
  have hbusy : tagsOf vm (insert x S) .busy = tagsOf vm S .busy := by
    refine tagsOf_insert_of_ne _ (fun heq => ?_)
    rw [isSpan, heq] at hx
    cases hx
  constructor
  · intro h
    exact ⟨hfree ▸ h.free, hbusy ▸ h.busy, hbusy ▸ h.inuse, hbusy ▸ h.nbusytag⟩
  · intro h
    exact ⟨hfree.symm ▸ h.free, hbusy.symm ▸ h.busy, hbusy.symm ▸ h.inuse, hbusy.symm ▸ h.nbusytag⟩

/-- A span leaves the arena with its only piece. -/
theorem Segs.remove (h : Segs vm {bt} (G ++ (s, [bt]) :: Z)) :
    Segs { vm with seglist := flat (G ++ Z), size := wsub vm.size (vm.tag s).size } ∅ (G ++ Z) := by
  have hsub : (flat (G ++ Z)).Sublist vm.seglist := by
    rw [h.seglist, flat_append, flat, List.flatMap_append]
    exact (List.Sublist.refl _).append ((List.sublist_append_right [s, bt] _))
  have hmemg : ∀ g ∈ G ++ Z, g ∈ G ++ (s, [bt]) :: Z := by
    intro g hg
    rw [List.mem_append] at hg
    rw [List.mem_append, List.mem_cons]
    rcases hg with hg | hg
    · exact Or.inl hg
    · exact Or.inr (Or.inr hg)
  have hbt : bt ∉ flat (G ++ Z) := by
    have hall := h.nodup
    have hat : vm.seglist = (flat G ++ s :: []) ++ bt :: ([] ++ flat Z) := h.seglist_at
    rw [hat] at hall
    have hperm := (List.perm_middle.nodup_iff.mp hall)
    rw [List.nodup_cons] at hperm
    intro hin
    refine hperm.1 ?_
    rw [flat, List.flatMap_append, List.mem_append] at hin
    rw [List.mem_append, List.mem_append]
    rcases hin with hin | hin
    · exact Or.inl (Or.inl hin)
    · exact Or.inr hin
  have hsize := h.size
  rw [List.map_append, List.sum_append, List.map_cons, List.sum_cons] at hsize
  simp only at hsize
  have hsum : wsub vm.size (vm.tag s).size = ((G ++ Z).map (fun g => (vm.tag g.1).size)).sum := by
    rw [wsub_eq (by omega) h.word, List.map_append, List.sum_append]
    omega
  refine ⟨rfl, h.nodup.sublist hsub, fun t ht => h.fresh t (hsub.subset ht), fun g hg => ?_, ?_, hsum,
    Nat.mod_lt _ (by decide)⟩
  · refine (h.spans g (hmemg g hg)).congr rfl (fun t ht => ⟨rfl, ?_⟩)
    refine ⟨fun hno => absurd hno (Finset.notMem_empty t), fun hin => absurd ?_ hbt⟩
    rw [← Finset.mem_singleton.mp hin]
    exact mem_flat.mpr ⟨g, hg, Or.inr ht⟩
  · exact h.beside.sublist ((List.Sublist.refl G).append (List.sublist_cons_self _ Z))

/-- A tag that fills its span has no others beside it. -/
theorem Segs.alone (h : Segs vm S (G ++ (s, bt :: post) :: Z))
    (hsize : (vm.tag s).size = (vm.tag bt).size) : post = [] := by
  have hok := h.spans _ (List.mem_append_cons_self)
  have htiles := hok.tiles
  rw [Tiles] at htiles
  cases post with
  | nil => rfl
  | cons t post =>
    have hrest := htiles.2.2.2.2
    rw [Tiles] at hrest
    have hle := hrest.2.2.2.2.le
    simp only at hle
    omega

theorem releaseOrInsfree_ok (h : Ok vm {bt} (G ++ (s, pre ++ bt :: post) :: Z))
    (hfree : (vm.tag bt).type = .free) (hlast : ∀ p ∈ pre.getLast?, (vm.tag p).type ≠ .free)
    (hhead : ∀ p ∈ post.head?, (vm.tag p).type ≠ .free) :
    ∃ vm' gs, releaseOrInsfree vm bt = some vm' ∧ Ok vm' ∅ gs := by
  rcases h.segs.apart_at with ⟨hnodup, hbtpre, hbtpost, hbtseg, hseg⟩
  have hok := h.segs.spans _ (List.mem_append_cons_self)
  have hall := h.segs.nodup
  rw [h.segs.seglist_at] at hall
  rcases insert_before (List.append_ne_nil_of_right_ne_nil _ (List.cons_ne_nil s pre)) hall with
    ⟨t, ht, hprev, -⟩
  rw [← h.segs.seglist_at] at hprev
  have hbin : bt ∈ ({bt} : Finset Nat) := Finset.mem_singleton_self bt
  have hempty : ({bt} : Finset Nat).erase bt = ∅ := Finset.erase_singleton bt
  unfold releaseOrInsfree
  rw [hprev]
  by_cases hrel : vm.releasefn ∧ (vm.tag t).type = .span ∧ (vm.tag t).size = (vm.tag bt).size
  · simp only [if_pos hrel]
    -- What stands before the tag is its span, so it is the first piece.
    have hpre : pre = [] := by
      rcases List.eq_nil_or_concat pre with rfl | ⟨pre, u, rfl⟩
      · rfl
      rw [List.concat_eq_append, ← List.cons_append, ← List.append_assoc, List.getLast?_concat,
        Option.some.injEq] at ht
      subst ht
      have htype := (hok.tiles.tile (t := u) (by simp)).1
      rw [hrel.2.1] at htype
      rcases htype with hno | hno
      · cases hno
      · cases hno
    subst hpre
    rw [List.getLast?_concat, Option.some.injEq] at ht
    subst ht
    have hpost := h.segs.alone hrel.2.2
    subst hpost
    have hqueue : (vm.seglist.erase bt).erase s = flat (G ++ Z) := by
      have hs : s ∉ flat G := fun hin =>
        (List.nodup_append.mp (List.nodup_append.mp hall).1).2.2 s hin s List.mem_cons_self rfl
      rw [flat_erase h.segs, List.append_nil, flat_append, List.cons_append, List.nil_append,
        erase_split s _ _ hs, flat, flat, flat, List.flatMap_append]
    refine ⟨_, G ++ Z, rfl, ?_, ?_, h.hashsize, h.quantum⟩
    · have hsegs := h.segs.remove
      rw [hrel.2.2] at hsegs
      refine Segs.of_eq hsegs ?_ rfl rfl rfl rfl
      exact hqueue
    have hlisted := h.listed.remseg hbin h.segs.nodup
    rw [hempty] at hlisted
    have hspan : isSpan ((btRemseg vm bt).tag s) = true := hok.span
    have hlisted' := ((listed_span hspan).mpr hlisted).remseg (Finset.mem_insert_self s ∅)
      (h.segs.nodup.erase bt)
    rw [Finset.erase_insert (Finset.notMem_empty s)] at hlisted'
    exact ⟨hlisted'.free, hlisted'.busy, hlisted'.inuse, hlisted'.nbusytag⟩
  · simp only [if_neg hrel]
    refine ⟨_, _, rfl, Segs.of_eq (h.segs.settle_one (fun _ => ⟨hlast, hhead⟩)) rfl rfl rfl rfl rfl, ?_,
      h.hashsize, h.quantum⟩
    rw [← hempty]
    exact h.listed.insfree hbtseg hbin hfree

/-- Freeing an allocation. -/
theorem vmemXfree_ok {gs : List (Nat × List Nat)} (h : Ok vm ∅ gs) {addr : Nat}
    (hlive : ∃ t ∈ vm.seglist, (vm.tag t).type = .busy ∧ (vm.tag t).start = addr) :
    ∃ vm' gs', vmemXfree vm addr = some vm' ∧ Ok vm' ∅ gs' := by
  -- The allocation is found on its hash chain.
  have hfound : ∃ bt ∈ vm.seglist, btLookupbusy vm addr = some bt ∧ (vm.tag bt).type = .busy := by
    rcases hlive with ⟨t, ht, htype, hstart⟩
    have hin : t ∈ vm.hashlist (btHashhead vm.hashsize addr) :=
      (h.listed.busy.mem _ t).mpr ⟨mem_tagsOf.mpr ⟨ht, Finset.notMem_empty t, htype⟩, by rw [hstart]⟩
    cases hfind : btLookupbusy vm addr with
    | none =>
      have hno := List.find?_eq_none.mp hfind t hin
      simp [hstart] at hno
    | some bt =>
      have hbt := (h.listed.busy.mem _ bt).mp (List.mem_of_find?_eq_some hfind)
      rcases mem_tagsOf.mp hbt.1 with ⟨hseg, -, hbusy⟩
      exact ⟨bt, hseg, rfl, hbusy⟩
  rcases hfound with ⟨bt, hseg, hlook, hbusy⟩
  rcases h.segs.place hseg (by rw [isSpan, hbusy]; rfl) with ⟨G, s, pre, post, Z, rfl⟩
  have hbin : bt ∈ ({bt} : Finset Nat) := Finset.mem_singleton_self bt
  have hword := h.segs.bounds_at.2.1
  have hwork : Ok (btRembusy vm bt) {bt} (G ++ (s, pre ++ bt :: post) :: Z) :=
    ⟨Segs.of_eq (h.segs.mono (Finset.empty_subset _)) rfl rfl rfl rfl rfl,
      h.listed.rembusy hseg (Finset.notMem_empty bt) hbusy hword, h.hashsize, h.quantum⟩
  have hwork' : Ok (setTag (btRembusy vm bt) bt { vm.tag bt with type := .free }) {bt}
      (G ++ (s, pre ++ bt :: post) :: Z) :=
    ⟨hwork.segs.retype hbin .free (Or.inl rfl), hwork.listed.setTag hbin _, h.hashsize, h.quantum⟩
  have htype : ((setTag (btRembusy vm bt) bt { vm.tag bt with type := .free }).tag bt).type =
      .free := by
    change (update vm.tag bt { vm.tag bt with type := .free } bt).type = .free
    rw [update_self]
  rcases coalesceNext_ok hwork' htype with ⟨post', hok₁, htype₁, hhead⟩
  rcases coalescePrev_ok hok₁ htype₁ hhead with ⟨pre', hok₂, htype₂, hlast, hhead'⟩
  rcases releaseOrInsfree_ok hok₂ htype₂ hlast hhead' with ⟨vm', gs', hend, hok₃⟩
  refine ⟨vm', gs', ?_, hok₃⟩
  rw [vmemXfree, hlook]
  exact hend

end FreeBSDKern.Vmem
