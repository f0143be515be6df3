import FreeBSDKern.Vmem.Lists

/-!
# Spans and Their Tiles

The queue of tags is a sequence of groups, each a span followed by the tags of
its pieces. The pieces lie one behind the other and fill the span. Where none of
them is worked on, two free pieces are never neighbours.

An operation on a tag only changes the group it is in. `Segs.replace` is the
step that all of them share: the other groups stay as they are, and only the
changed one has to be looked at.

## Main definitions

* `flat`: The queue of a sequence of groups.
* `Tiles`: Pieces that lie one behind the other.
* `Apart`: No two free pieces are neighbours.
* `SpanOk`: A span and its pieces.
* `Segs`: All of them.

## Theorems

* `Segs.place`: The group of a tag.
* `Segs.replace`: A change in one group.
-/

namespace FreeBSDKern.Vmem

open Lib

/-- The queue of a sequence of groups. -/
def flat (gs : List (Nat × List Nat)) : List Nat := gs.flatMap (fun g => g.1 :: g.2)

/-- Pieces, free or busy, that lie one behind the other from an address to
    another. -/
def Tiles (tag : Nat → Bt) (q : Nat) : Nat → List Nat → Nat → Prop
  | a, [], e => a = e
  | a, t :: ts, e => (tag t).start = a ∧ 0 < (tag t).size ∧ q ∣ (tag t).size ∧
      ((tag t).type = .free ∨ (tag t).type = .busy) ∧ Tiles tag q (a + (tag t).size) ts e

/-- A free piece that is not worked on. -/
def FreeTile (tag : Nat → Bt) (S : Finset Nat) (t : Nat) : Prop := t ∉ S ∧ (tag t).type = .free

/-- No two free pieces that are not worked on are neighbours. -/
def Apart (tag : Nat → Bt) (S : Finset Nat) (ts : List Nat) : Prop :=
  ts.IsChain (fun x y => ¬ (FreeTile tag S x ∧ FreeTile tag S y))

/-- A span and its pieces. -/
structure SpanOk (tag : Nat → Bt) (q : Nat) (S : Finset Nat) (g : Nat × List Nat) : Prop where
  span : isSpan (tag g.1) = true
  pos : 0 < (tag g.1).size
  word : (tag g.1).size < 2 ^ 64
  dvdStart : q ∣ (tag g.1).start
  dvdSize : q ∣ (tag g.1).size
  fits : (tag g.1).start + (tag g.1).size ≤ 2 ^ 64
  tiles : Tiles tag q (tag g.1).start g.2 ((tag g.1).start + (tag g.1).size)
  apart : Apart tag S g.2

/-- Two spans do not overlap. -/
def Beside (tag : Nat → Bt) (s t : Nat) : Prop :=
  (tag s).start + (tag s).size ≤ (tag t).start ∨ (tag t).start + (tag t).size ≤ (tag s).start

/-- The queue of the arena is that of its spans. -/
structure Segs (vm : Arena) (S : Finset Nat) (gs : List (Nat × List Nat)) : Prop where
  seglist : vm.seglist = flat gs
  nodup : vm.seglist.Nodup
  fresh : ∀ t ∈ vm.seglist, t < vm.nextTag
  spans : ∀ g ∈ gs, SpanOk vm.tag (vm.quantumMask + 1) S g
  beside : gs.Pairwise (fun g g' => Beside vm.tag g.1 g'.1)
  size : vm.size = (gs.map (fun g => (vm.tag g.1).size)).sum
  word : vm.size < 2 ^ 64

theorem flat_append (G Z : List (Nat × List Nat)) (s : Nat) (ts : List Nat) :
    flat (G ++ (s, ts) :: Z) = flat G ++ (s :: ts ++ flat Z) := by
  rw [flat, List.flatMap_append, List.flatMap_cons]
  rfl

variable {gs : List (Nat × List Nat)} {t q : Nat} {tag tag' : Nat → Bt} {ts post : List Nat}
  {S S' : Finset Nat} {vm : Arena}

theorem mem_flat : t ∈ flat gs ↔ ∃ g ∈ gs, t = g.1 ∨ t ∈ g.2 := by
  rw [flat, List.mem_flatMap]
  simp only [List.mem_cons]

theorem Tiles.le : ∀ {a e : Nat}, Tiles tag q a ts e → a ≤ e := by
  induction ts with
  | nil =>
    intro a e h
    exact le_of_eq h
  | cons t ts ih =>
    intro a e h
    have := ih h.2.2.2.2
    omega

theorem Tiles.append {xs ys : List Nat} : ∀ {a e : Nat},
    Tiles tag q a (xs ++ ys) e ↔ ∃ m, Tiles tag q a xs m ∧ Tiles tag q m ys e := by
  induction xs with
  | nil =>
    intro a e
    constructor
    · intro h
      exact ⟨a, rfl, h⟩
    · rintro ⟨m, rfl, h⟩
      exact h
  | cons x xs ih =>
    intro a e
    rw [List.cons_append, Tiles, ih]
    constructor
    · rintro ⟨h1, h2, h3, h4, m, hm, hrest⟩
      exact ⟨m, ⟨h1, h2, h3, h4, hm⟩, hrest⟩
    · rintro ⟨m, ⟨h1, h2, h3, h4, hm⟩, hrest⟩
      exact ⟨h1, h2, h3, h4, m, hm, hrest⟩

theorem Tiles.congr : ∀ {a e : Nat},
    Tiles tag q a ts e → (∀ t ∈ ts, tag' t = tag t) → Tiles tag' q a ts e := by
  induction ts with
  | nil =>
    intro a e h _
    exact h
  | cons t ts ih =>
    intro a e h hsame
    rw [Tiles, hsame t List.mem_cons_self]
    exact ⟨h.1, h.2.1, h.2.2.1, h.2.2.2.1,
      ih h.2.2.2.2 (fun u hu => hsame u (List.mem_cons_of_mem t hu))⟩

theorem Tiles.dvd : ∀ {a e : Nat}, Tiles tag q a ts e → q ∣ a → q ∣ e := by
  induction ts with
  | nil =>
    intro a e h ha
    exact h ▸ ha
  | cons t ts ih =>
    intro a e h ha
    exact ih h.2.2.2.2 (Nat.dvd_add ha h.2.2.1)

/-- Where a piece lies among the others. -/
theorem Tiles.split {pre : List Nat} {a e : Nat} :
    Tiles tag q a (pre ++ t :: post) e ↔ Tiles tag q a pre (tag t).start ∧ 0 < (tag t).size ∧
      q ∣ (tag t).size ∧ ((tag t).type = .free ∨ (tag t).type = .busy) ∧
      Tiles tag q ((tag t).start + (tag t).size) post e := by
  rw [Tiles.append]
  constructor
  · rintro ⟨m, hpre, rfl, hrest⟩
    exact ⟨hpre, hrest⟩
  · rintro ⟨hpre, hrest⟩
    exact ⟨(tag t).start, hpre, rfl, hrest⟩

theorem Tiles.tile {a e : Nat} (h : Tiles tag q a ts e) (ht : t ∈ ts) :
    ((tag t).type = .free ∨ (tag t).type = .busy) ∧ 0 < (tag t).size ∧ a ≤ (tag t).start ∧
      (tag t).start + (tag t).size ≤ e := by
  rcases List.append_of_mem ht with ⟨pre, post, rfl⟩
  rcases Tiles.split.mp h with ⟨hpre, hpos, -, htype, hpost⟩
  exact ⟨htype, hpos, hpre.le, hpost.le⟩

theorem Apart.congr (h : Apart tag S ts) (hsame : ∀ t ∈ ts, tag' t = tag t ∧ (t ∈ S → t ∈ S')) :
    Apart tag' S' ts := by
  have hfree : ∀ t ∈ ts, FreeTile tag' S' t → FreeTile tag S t := by
    rintro t ht ⟨hS, htype⟩
    rw [(hsame t ht).1] at htype
    exact ⟨fun hin => hS ((hsame t ht).2 hin), htype⟩
  refine List.IsChain.imp_of_mem_imp (fun x y hx hy hno => ?_) h
  rintro ⟨hfx, hfy⟩
  exact hno ⟨hfree x hx hfx, hfree y hy hfy⟩

theorem apart_cons : Apart tag S (t :: post) ↔ Apart tag S post ∧
      (FreeTile tag S t → ∀ p ∈ post.head?, ¬ FreeTile tag S p) := by
  unfold Apart
  rw [List.isChain_cons]
  constructor
  · rintro ⟨hhead, hpost⟩
    exact ⟨hpost, fun ht p hp hfree => hhead p hp ⟨ht, hfree⟩⟩
  · rintro ⟨hpost, ht⟩
    exact ⟨fun p hp hboth => ht hboth.1 p hp hboth.2, hpost⟩

/-- A piece among others is only asked about its two neighbours. -/
theorem apart_middle {pre : List Nat} :
    Apart tag S (pre ++ t :: post) ↔ Apart tag S pre ∧ Apart tag S (t :: post) ∧
      (FreeTile tag S t → ∀ p ∈ pre.getLast?, ¬ FreeTile tag S p) := by
  unfold Apart
  rw [List.isChain_append]
  refine and_congr_right (fun _ => and_congr_right (fun _ => ?_))
  constructor
  · intro hlast ht p hp hfree
    exact hlast p hp t rfl ⟨hfree, ht⟩
  intro ht p hp u hu hboth
  rw [List.head?_cons, Option.mem_some_iff] at hu
  subst hu
  exact ht hboth.2 p hp hboth.1

/-- A span with other pieces. -/
theorem SpanOk.refill {s : Nat} {ts' : List Nat} (h : SpanOk tag q S (s, ts))
    (hself : tag' s = tag s)
    (htiles : Tiles tag' q (tag s).start ts' ((tag s).start + (tag s).size))
    (hapart : Apart tag' S' ts') : SpanOk tag' q S' (s, ts') := by
  refine ⟨?_, ?_, ?_, ?_, ?_, ?_, ?_, hapart⟩
  · exact hself.symm ▸ h.span
  · exact hself.symm ▸ h.pos
  · exact hself.symm ▸ h.word
  · exact hself.symm ▸ h.dvdStart
  · exact hself.symm ▸ h.dvdSize
  · exact hself.symm ▸ h.fits
  · exact hself.symm ▸ htiles

theorem SpanOk.congr {g : Nat × List Nat} (h : SpanOk tag q S g) (hself : tag' g.1 = tag g.1)
    (hsame : ∀ t ∈ g.2, tag' t = tag t ∧ (t ∈ S' ↔ t ∈ S)) : SpanOk tag' q S' g :=
  h.refill hself (h.tiles.congr (fun t ht => (hsame t ht).1))
    (h.apart.congr (fun t ht => ⟨(hsame t ht).1, (hsame t ht).2.mpr⟩))

/-- The group of a free or busy tag. -/
theorem Segs.place (h : Segs vm S gs) (ht : t ∈ vm.seglist) (htype : isSpan (vm.tag t) = false) :
    ∃ G s pre post Z, gs = G ++ (s, pre ++ t :: post) :: Z := by
  rw [h.seglist, mem_flat] at ht
  rcases ht with ⟨⟨s, ts⟩, hg, hcase⟩
  rcases hcase with rfl | hin
  · rw [(h.spans _ hg).span] at htype
    cases htype
  rcases List.append_of_mem hin with ⟨pre, post, rfl⟩
  rcases List.append_of_mem hg with ⟨G, Z, rfl⟩
  exact ⟨G, s, pre, post, Z, rfl⟩

theorem Segs.replace {vm' : Arena} {G Z : List (Nat × List Nat)} {s : Nat} {ts' : List Nat}
    (h : Segs vm S (G ++ (s, ts) :: Z)) (hseg : vm'.seglist = flat (G ++ (s, ts') :: Z))
    (hnodup : ts'.Nodup) (hnew : ∀ t ∈ ts', t ∈ ts ∨ (vm.nextTag ≤ t ∧ t < vm'.nextTag))
    (hnext : vm.nextTag ≤ vm'.nextTag) (hq : vm'.quantumMask = vm.quantumMask)
    (hsize : vm'.size = vm.size)
    (hsame : ∀ t ∈ vm.seglist, t ∉ ts → vm'.tag t = vm.tag t ∧ (t ∈ S' ↔ t ∈ S))
    (hok : SpanOk vm'.tag (vm.quantumMask + 1) S' (s, ts')) : Segs vm' S' (G ++ (s, ts') :: Z) := by
  -- The tags outside the group, with its span.
  have hperm : ∀ l, (flat (G ++ (s, l) :: Z)).Perm ((s :: (flat G ++ flat Z)) ++ l) := by
    intro l
    rw [flat_append, List.cons_append, List.cons_append, List.append_assoc]
    exact List.perm_middle.trans ((List.perm_append_comm.append_left (flat G)).cons s)
  have hold := h.nodup
  rw [h.seglist, (hperm ts).nodup_iff, List.nodup_append] at hold
  rcases hold with ⟨hrest, -, hdis⟩
  have hmem : ∀ t, t ∈ vm.seglist ↔ t ∈ s :: (flat G ++ flat Z) ∨ t ∈ ts := fun t => by
    rw [h.seglist, (hperm ts).mem_iff, List.mem_append]
  have hout : ∀ t ∈ s :: (flat G ++ flat Z), t ∈ vm.seglist ∧ t ∉ ts :=
    fun t ht => ⟨(hmem t).mpr (Or.inl ht), fun hin => hdis t ht t hin rfl⟩
  have hpart : ∀ g, g ∈ G ∨ g ∈ Z → ∀ t, t = g.1 ∨ t ∈ g.2 → t ∈ s :: (flat G ++ flat Z) :=
    fun g hg t ht => List.mem_cons_of_mem s (List.mem_append.mpr
      (hg.imp (fun hg => mem_flat.mpr ⟨g, hg, ht⟩) (fun hg => mem_flat.mpr ⟨g, hg, ht⟩)))
  have htagOf : ∀ g ∈ G ++ (s, ts) :: Z, vm'.tag g.1 = vm.tag g.1 := by
    intro g hg
    have hin : g.1 ∈ s :: (flat G ++ flat Z) := by
      rw [List.mem_append, List.mem_cons] at hg
      rcases hg with hg | rfl | hg
      · exact hpart g (Or.inl hg) _ (Or.inl rfl)
      · exact List.mem_cons_self
      · exact hpart g (Or.inr hg) _ (Or.inl rfl)
    exact (hsame g.1 (hout _ hin).1 (hout _ hin).2).1
  have hkeep : ∀ g, (g ∈ G ∨ g ∈ Z) → SpanOk vm'.tag (vm.quantumMask + 1) S' g := by
    intro g hg
    have hin : g ∈ G ++ (s, ts) :: Z := List.mem_append.mpr (hg.imp_right (List.mem_cons_of_mem _))
    refine (h.spans g hin).congr (htagOf g hin) (fun t ht => ?_)
    rcases hout t (hpart g hg t (Or.inr ht)) with ⟨hseg', hnot⟩
    exact hsame t hseg' hnot
  -- The spans are those from before.
  have hfst : (G ++ (s, ts') :: Z).map Prod.fst = (G ++ (s, ts) :: Z).map Prod.fst := by simp
  have htag' : ∀ x ∈ (G ++ (s, ts) :: Z).map Prod.fst, vm'.tag x = vm.tag x := by
    intro x hx
    rcases List.mem_map.mp hx with ⟨g, hg, rfl⟩
    exact htagOf g hg
  refine ⟨hseg, ?_, fun t ht => ?_, fun g hg => ?_, ?_, ?_, hsize ▸ h.word⟩
  · rw [hseg, (hperm ts').nodup_iff]
    refine List.nodup_append.mpr ⟨hrest, hnodup, ?_⟩
    rintro t ht u hu rfl
    rcases hnew t hu with hts | ⟨hge, -⟩
    · exact (hout t ht).2 hts
    · have := h.fresh t (hout t ht).1
      omega
  · rw [hseg, (hperm ts').mem_iff, List.mem_append] at ht
    have hbound : t ∈ vm.seglist → t < vm'.nextTag := fun hin =>
      lt_of_lt_of_le (h.fresh t hin) hnext
    rcases ht with ht | ht
    · exact hbound (hout t ht).1
    rcases hnew t ht with hts | ⟨-, hlt⟩
    · exact hbound ((hmem t).mpr (Or.inr hts))
    · exact hlt
  · rw [hq]
    rw [List.mem_append, List.mem_cons] at hg
    rcases hg with hg | rfl | hg
    · exact hkeep g (Or.inl hg)
    · exact hok
    · exact hkeep g (Or.inr hg)
  · have hb := List.pairwise_map.mpr h.beside
    refine List.pairwise_map.mp (hfst ▸ hb.imp_of_mem (fun hx hy hxy => ?_))
    rw [Beside, htag' _ hx, htag' _ hy]
    exact hxy
  have hmap : ∀ (tag : Nat → Bt) (l : List (Nat × List Nat)),
      l.map (fun g => (tag g.1).size) = (l.map Prod.fst).map (fun x => (tag x).size) :=
    fun tag l => by rw [List.map_map]; rfl
  rw [hsize, h.size, hmap, hmap, hfst]
  exact congrArg List.sum (List.map_congr_left (fun x hx => by rw [htag' x hx]))

/-- The spans only depend on the queue, the tags and the sizes. -/
theorem Segs.of_eq {vm' : Arena} (h : Segs vm S gs) (hseg : vm'.seglist = vm.seglist)
    (htag : vm'.tag = vm.tag) (hnext : vm'.nextTag = vm.nextTag)
    (hq : vm'.quantumMask = vm.quantumMask) (hsize : vm'.size = vm.size) : Segs vm' S gs := by
  refine ⟨hseg.trans h.seglist, hseg ▸ h.nodup, ?_, ?_, ?_, ?_, hsize ▸ h.word⟩
  · rw [hseg, hnext]
    exact h.fresh
  · rw [htag, hq]
    exact h.spans
  · rw [htag]
    exact h.beside
  · rw [hsize, htag]
    exact h.size

/-- Beginning to work on tags does no harm. -/
theorem Segs.mono (h : Segs vm S gs) (hS : S ⊆ S') : Segs vm S' gs := by
  refine ⟨h.seglist, h.nodup, h.fresh, fun g hg => ?_, h.beside, h.size, h.word⟩
  have hok := h.spans g hg
  refine ⟨hok.span, hok.pos, hok.word, hok.dvdStart, hok.dvdSize, hok.fits, hok.tiles, ?_⟩
  exact hok.apart.congr (fun t _ => ⟨rfl, fun hin => hS hin⟩)

end FreeBSDKern.Vmem
