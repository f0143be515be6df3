import FreeBSDKern.Vmem.Spans

/-!
# Clipping a Free Tag

An allocation takes a part of a free tag. What lies before it becomes a free tag
of its own, and what lies behind it stays free. The neighbours of the tag are not
free, since it was, so no two free tags come to lie side by side.

## Main definitions

* `Ok`: The invariant of an arena, with the tags that are worked on.

## Theorems

* `clipFront_ok`, `clipBack_ok`: The two halves.
* `vmemClip_ok`: The whole.
-/

namespace FreeBSDKern.Vmem

open Lib Function

/-- The invariant of an arena, with the tags that are worked on. -/
structure Ok (vm : Arena) (S : Finset Nat) (gs : List (Nat × List Nat)) : Prop where
  segs : Segs vm S gs
  listed : Listed vm S
  hashsize : 0 < vm.hashsize
  quantum : Pow2 (vm.quantumMask + 1)

theorem wsub_eq {a b : Nat} (h : b ≤ a) (ha : a < 2 ^ 64) : wsub a b = a - b := by
  unfold wsub
  rw [show a + (2 ^ 64 - b) = a - b + 2 ^ 64 by omega, Nat.add_mod_right, Nat.mod_eq_of_lt (by omega)]

theorem wadd_eq {a b : Nat} (h : a + b < 2 ^ 64) : wadd a b = a + b := Nat.mod_eq_of_lt h

variable {vm : Arena} {S : Finset Nat} {G Z : List (Nat × List Nat)} {s bt : Nat}
  {pre post : List Nat}

section

variable (h : Segs vm S (G ++ (s, pre ++ bt :: post) :: Z))
include h

/-- The place of a tag in the queue. -/
theorem Segs.seglist_at :
    vm.seglist = (flat G ++ s :: pre) ++ bt :: (post ++ flat Z) := by
  rw [h.seglist, flat_append]
  simp only [List.append_assoc, List.cons_append]

/-- A tag is not among the others of its group, and none of them is new. -/
theorem Segs.apart_at :
    (pre ++ bt :: post).Nodup ∧ bt ∉ pre ∧ bt ∉ post ∧ bt ∈ vm.seglist ∧
      ∀ t ∈ pre ++ bt :: post, t ∈ vm.seglist := by
  have hseg : ∀ t ∈ pre ++ bt :: post, t ∈ vm.seglist := by
    intro t ht
    rw [h.seglist, mem_flat]
    exact ⟨_, List.mem_append_cons_self, Or.inr ht⟩
  have hnodup := h.nodup
  rw [h.seglist, flat_append] at hnodup
  have hts := (List.nodup_cons.mp (List.nodup_append.mp (List.nodup_append.mp hnodup).2.1).1).2
  have hparts := List.nodup_append.mp hts
  exact ⟨hts, fun hin => hparts.2.2 bt hin bt List.mem_cons_self rfl,
    (List.nodup_cons.mp hparts.2.1).1, hseg bt (List.mem_append_cons_self), hseg⟩

theorem Segs.span_at :
    s ∈ vm.seglist ∧ s ≠ bt := by
  have hall := h.nodup
  rw [h.seglist, flat_append] at hall
  refine ⟨?_, ?_⟩
  · rw [h.seglist, mem_flat]
    exact ⟨_, List.mem_append_cons_self, Or.inl rfl⟩
  rintro rfl
  exact (List.nodup_cons.mp (List.nodup_append.mp (List.nodup_append.mp hall).2.1).1).1
    (List.mem_append_cons_self)

/-- The addresses of a tag in its span. -/
theorem Segs.bounds_at :
    0 < (vm.tag bt).size ∧ (vm.tag bt).size < 2 ^ 64 ∧
      (vm.tag bt).start + (vm.tag bt).size ≤ 2 ^ 64 ∧ vm.quantumMask + 1 ∣ (vm.tag bt).start ∧
      vm.quantumMask + 1 ∣ (vm.tag bt).size := by
  have hok := h.spans _ (List.mem_append_cons_self)
  rcases Tiles.split.mp hok.tiles with ⟨hpre, hpos, hq, -, hpost⟩
  have hlo := hpre.le
  have hhi := hpost.le
  have hword := hok.word
  have hfits := hok.fits
  exact ⟨hpos, by omega, by omega, hpre.dvd hok.dvdStart, hq⟩

/-- A tag is inserted before another. -/
theorem Segs.insert_at (f : List Nat → Arena) (x : Nat) :
    (prev? vm.seglist bt).map (fun p => f (insertAfter vm.seglist p x)) =
      some (f (flat (G ++ (s, pre ++ x :: bt :: post) :: Z))) := by
  have hnodup := h.nodup
  rw [h.seglist_at] at hnodup
  rcases insert_before (List.append_ne_nil_of_right_ne_nil _ (List.cons_ne_nil s pre)) hnodup with
    ⟨p, -, hprev, hins⟩
  rw [← h.seglist_at] at hprev hins
  rw [hprev, Option.map_some, hins x, flat_append]
  simp only [List.append_assoc, List.cons_append]

end

/-- Work on the tags of a group ends where no two free ones are neighbours. -/
theorem Segs.settle {ts : List Nat} (h : Segs vm S (G ++ (s, ts) :: Z)) (S' : Finset Nat)
    (hS : ∀ t ∈ vm.seglist, t ∉ ts → (t ∈ S' ↔ t ∈ S)) (hapart : Apart vm.tag S' ts) :
    Segs vm S' (G ++ (s, ts) :: Z) := by
  have hok := h.spans _ (List.mem_append_cons_self)
  have hnodup := h.nodup
  rw [h.seglist, flat_append] at hnodup
  have hts := (List.nodup_cons.mp (List.nodup_append.mp (List.nodup_append.mp hnodup).2.1).1).2
  exact h.replace h.seglist hts (fun t ht => Or.inl ht) le_rfl rfl rfl
    (fun t ht hnot => ⟨rfl, hS t ht hnot⟩)
    ⟨hok.span, hok.pos, hok.word, hok.dvdStart, hok.dvdSize, hok.fits, hok.tiles, hapart⟩

/-- Work on one tag ends where it has no free neighbour, if it is free. -/
theorem Segs.settle_one (h : Segs vm {bt} (G ++ (s, pre ++ bt :: post) :: Z))
    (hfree : (vm.tag bt).type = .free → (∀ p ∈ pre.getLast?, (vm.tag p).type ≠ .free) ∧
      ∀ p ∈ post.head?, (vm.tag p).type ≠ .free) : Segs vm ∅ (G ++ (s, pre ++ bt :: post) :: Z) := by
  rcases h.apart_at with ⟨-, hbtpre, hbtpost, -, -⟩
  have hno : ∀ t, t ≠ bt → t ∈ ({bt} : Finset Nat) → t ∈ (∅ : Finset Nat) :=
    fun t hne hin => absurd (Finset.mem_singleton.mp hin) hne
  refine h.settle ∅ (fun t _ hnot => ⟨fun hin => absurd hin (Finset.notMem_empty t),
    fun hin => absurd ?_ hnot⟩) ?_
  · rw [Finset.mem_singleton.mp hin]
    exact List.mem_append_cons_self
  rcases apart_middle.mp (h.spans _ List.mem_append_cons_self).apart with ⟨hapre, hapost, -⟩
  exact apart_middle.mpr ⟨hapre.congr (fun t ht => ⟨rfl, hno t (fun heq => hbtpre (heq ▸ ht))⟩),
    apart_cons.mpr ⟨(apart_cons.mp hapost).1.congr (fun t ht =>
      ⟨rfl, hno t (fun heq => hbtpost (heq ▸ ht))⟩), fun hf p hp hp' => (hfree hf.2).2 p hp hp'.2⟩,
    fun hf p hp hp' => (hfree hf.2).1 p hp hp'.2⟩

/-- Work on two tags ends where neither has a free neighbour, if it is free. -/
theorem Segs.settle_two {x : Nat} {S' : Finset Nat} (hS : S' ⊆ {x, bt})
    (h : Segs vm {x, bt} (G ++ (s, pre ++ x :: bt :: post) :: Z))
    (hx : FreeTile vm.tag S' x → (∀ p ∈ pre.getLast?, (vm.tag p).type ≠ .free) ∧
      ¬ FreeTile vm.tag S' bt)
    (hb : FreeTile vm.tag S' bt → ∀ p ∈ post.head?, (vm.tag p).type ≠ .free) :
    Segs vm S' (G ++ (s, pre ++ x :: bt :: post) :: Z) := by
  have hother : ∀ t, t ∈ pre ∨ t ∈ post → t ∉ ({x, bt} : Finset Nat) := by
    have hnodup := h.apart_at.1
    grind
  refine h.settle S' (fun t _ hnot => ⟨fun hin => hS hin, fun hin => absurd ?_ hnot⟩) ?_
  · grind
  rcases apart_middle.mp (h.spans _ List.mem_append_cons_self).apart with ⟨hapre, hapost, -⟩
  have hafter := (apart_cons.mp (apart_cons.mp hapost).1).1
  refine apart_middle.mpr ⟨hapre.congr (fun t ht => ⟨rfl, fun hin => absurd hin (hother t (.inl ht))⟩),
    apart_cons.mpr ⟨apart_cons.mpr ⟨hafter.congr (fun t ht =>
      ⟨rfl, fun hin => absurd hin (hother t (.inr ht))⟩), fun hf p hp hf' => hb hf p hp hf'.2⟩,
      fun hf p hp hf' => ?_⟩, fun hf p hp hf' => (hx hf).1 p hp hf'.2⟩
  rw [List.head?_cons, Option.mem_some_iff] at hp
  exact (hx hf).2 (hp ▸ hf')

/-- The arena with a new tag before another. -/
def splitTag (vm : Arena) (bt : Nat) (bx bb : Bt) (l : List Nat) : Arena :=
  setTag { btAlloc vm bx with seglist := l } bt bb

/-- A tag that is worked on is split in two, and so is its place. -/
theorem splitTag_ok (h : Ok vm {bt} (G ++ (s, pre ++ bt :: post) :: Z)) (bx bb : Bt)
    (hx : bx.start = (vm.tag bt).start) (hxpos : 0 < bx.size) (hxq : vm.quantumMask + 1 ∣ bx.size)
    (hxtype : bx.type = .free ∨ bx.type = .busy) (hb : bb.start = (vm.tag bt).start + bx.size)
    (hsize : bx.size + bb.size = (vm.tag bt).size) (hbpos : 0 < bb.size)
    (hbtype : bb.type = .free ∨ bb.type = .busy) :
    Segs (splitTag vm bt bx bb (flat (G ++ (s, pre ++ vm.nextTag :: bt :: post) :: Z)))
        {vm.nextTag, bt} (G ++ (s, pre ++ vm.nextTag :: bt :: post) :: Z) ∧
      Listed (splitTag vm bt bx bb (flat (G ++ (s, pre ++ vm.nextTag :: bt :: post) :: Z)))
        {vm.nextTag, bt} ∧
      (splitTag vm bt bx bb (flat (G ++ (s, pre ++ vm.nextTag :: bt :: post) :: Z))).tag
        vm.nextTag = bx ∧
      (splitTag vm bt bx bb (flat (G ++ (s, pre ++ vm.nextTag :: bt :: post) :: Z))).tag bt = bb ∧
      ∀ t ∈ vm.seglist, t ≠ bt →
        (splitTag vm bt bx bb (flat (G ++ (s, pre ++ vm.nextTag :: bt :: post) :: Z))).tag t =
          vm.tag t := by
  rcases h.segs.apart_at with ⟨hnodup, hbtpre, hbtpost, hbtseg, hseg⟩
  rcases h.segs.bounds_at with ⟨-, -, -, hqstart, hqsize⟩
  have hfresh : ∀ t ∈ vm.seglist, t ≠ vm.nextTag := fun t ht => ne_of_lt (h.segs.fresh t ht)
  have hnew : vm.nextTag ∉ vm.seglist := fun hin => hfresh _ hin rfl
  have hxbt : vm.nextTag ≠ bt := (hfresh bt hbtseg).symm
  generalize hl : flat (G ++ (s, pre ++ vm.nextTag :: bt :: post) :: Z) = l
  have htag : ∀ t, (splitTag vm bt bx bb l).tag t =
      update (update vm.tag vm.nextTag bx) bt bb t := fun _ => rfl
  have htx : (splitTag vm bt bx bb l).tag vm.nextTag = bx := by
    rw [htag, update_of_ne hxbt, update_self]
  have htb : (splitTag vm bt bx bb l).tag bt = bb := by
    rw [htag, update_self]
  have hother : ∀ t ∈ vm.seglist, t ≠ bt → (splitTag vm bt bx bb l).tag t = vm.tag t := by
    intro t ht hne
    rw [htag, update_of_ne hne, update_of_ne (hfresh t ht)]
  have hpre : ∀ t ∈ pre, (splitTag vm bt bx bb l).tag t = vm.tag t := fun t ht =>
    hother t (hseg t (List.mem_append_left _ ht)) (fun heq => hbtpre (heq ▸ ht))
  have hpost : ∀ t ∈ post, (splitTag vm bt bx bb l).tag t = vm.tag t := fun t ht =>
    hother t (hseg t (List.mem_append_right _ (List.mem_cons_of_mem bt ht)))
      (fun heq => hbtpost (heq ▸ ht))
  have hok := h.segs.spans _ (List.mem_append_cons_self)
  rcases h.segs.span_at with ⟨hsseg, hsne⟩
  refine ⟨?_, ?_, htx, htb, hother⟩
  · have hbig : Segs vm {vm.nextTag, bt} (G ++ (s, pre ++ bt :: post) :: Z) :=
      h.segs.mono (Finset.subset_insert _ _)
    refine hbig.replace hl.symm ?_ (fun t ht => ?_) (Nat.le_succ _) rfl rfl
      (fun t ht hnot => ⟨hother t ht ?_, Iff.rfl⟩) ?_
    · -- The new tag is not among the others.
      have hnin : vm.nextTag ∉ pre ++ bt :: post := fun hin => hnew (hseg _ hin)
      refine (List.perm_middle.nodup_iff).mpr (List.nodup_cons.mpr ⟨hnin, hnodup⟩)
    · rw [List.mem_append, List.mem_cons] at ht
      rcases ht with ht | rfl | ht
      · exact Or.inl (List.mem_append_left _ ht)
      · exact Or.inr ⟨le_rfl, Nat.lt_succ_self _⟩
      · exact Or.inl (List.mem_append_right _ ht)
    · rintro rfl
      exact hnot (List.mem_append_cons_self)
    refine hok.refill (hother s hsseg hsne) ?_ ?_
    · rcases Tiles.split.mp hok.tiles with ⟨htpre, -, -, -, htpost⟩
      rw [Tiles.split, htx]
      refine ⟨hx ▸ htpre.congr hpre, hxpos, hxq, hxtype, ?_⟩
      rw [Tiles, htb]
      refine ⟨by rw [hb, hx], hbpos, ?_, hbtype, ?_⟩
      · exact (Nat.dvd_add_right hxq).mp (hsize ▸ hqsize)
      · rw [hx, Nat.add_assoc, hsize]
        exact htpost.congr hpost
    -- Both tags are worked on, so nothing is asked of them.
    rcases apart_middle.mp hok.apart with ⟨hapre, hapost, -⟩
    have hkeep : ∀ t, t ∈ ({bt} : Finset Nat) → t ∈ ({vm.nextTag, bt} : Finset Nat) :=
      fun t ht => Finset.mem_insert_of_mem ht
    have hbS : bt ∈ ({vm.nextTag, bt} : Finset Nat) := hkeep bt (Finset.mem_singleton_self bt)
    have hxS : vm.nextTag ∈ ({vm.nextTag, bt} : Finset Nat) := Finset.mem_insert_self _ _
    have hpost' := (apart_cons.mp hapost).1.congr (fun t ht => ⟨hpost t ht, hkeep t⟩)
    exact apart_middle.mpr ⟨hapre.congr (fun t ht => ⟨hpre t ht, hkeep t⟩),
      apart_cons.mpr ⟨apart_cons.mpr ⟨hpost', fun hfree => absurd hbS hfree.1⟩,
        fun hfree => absurd hxS hfree.1⟩, fun hfree => absurd hxS hfree.1⟩
  · refine (h.listed.newTag bx l hnew (fun t => ?_)).setTag (Finset.mem_insert_of_mem
      (Finset.mem_singleton_self bt)) bb
    have hflat : l = (flat G ++ s :: pre) ++ vm.nextTag :: (bt :: (post ++ flat Z)) := by
      rw [← hl, flat_append]
      simp only [List.append_assoc, List.cons_append]
    rw [hflat, h.segs.seglist_at]
    exact List.perm_middle.mem_iff.trans List.mem_cons

/-- What lies before the allocation becomes a free tag of its own. -/
theorem clipFront_ok {start : Nat} (h : Ok vm {bt} (G ++ (s, pre ++ bt :: post) :: Z))
    (hfree : (vm.tag bt).type = .free) (hlast : ∀ p ∈ pre.getLast?, (vm.tag p).type ≠ .free)
    (hlo : (vm.tag bt).start ≤ start) (hhi : start < (vm.tag bt).start + (vm.tag bt).size)
    (hq : vm.quantumMask + 1 ∣ start) : ∃ vm' pre', clipFront vm bt start = some vm' ∧
      Ok vm' {bt} (G ++ (s, pre' ++ bt :: post) :: Z) ∧ vm'.quantumMask = vm.quantumMask ∧
      vm'.tag bt = { start := start
                     size := (vm.tag bt).start + (vm.tag bt).size - start, type := .free } ∧
      ∀ t ∈ post, vm'.tag t = vm.tag t := by
  rcases h.segs.apart_at with ⟨hnodup, hbtpre, hbtpost, hbtseg, hseg⟩
  rcases h.segs.bounds_at with ⟨hpos, hword, hend, hqstart, hqsize⟩
  unfold clipFront
  by_cases hsame : (vm.tag bt).start = start
  · simp only [hsame, ne_eq, not_true_eq_false, if_false]
    refine ⟨vm, pre, rfl, h, rfl, ?_, fun _ _ => rfl⟩
    rw [← hsame, Nat.add_sub_cancel_left, ← hfree]
  have hne : (vm.tag bt).start ≠ start := hsame
  have hpsize : wsub start (vm.tag bt).start = start - (vm.tag bt).start :=
    wsub_eq hlo (by omega)
  have hrest : wsub (vm.tag bt).size (start - (vm.tag bt).start) =
      (vm.tag bt).start + (vm.tag bt).size - start := by
    rw [wsub_eq (by omega) hword]
    omega
  have hfresh : ∀ t ∈ vm.seglist, t ≠ vm.nextTag := fun t ht => ne_of_lt (h.segs.fresh t ht)
  simp only [if_pos hne, hpsize, hrest]
  -- The new tag comes to stand before the old one.
  rcases splitTag_ok h ⟨(vm.tag bt).start, start - (vm.tag bt).start, .free⟩
    ⟨start, (vm.tag bt).start + (vm.tag bt).size - start, (vm.tag bt).type⟩ rfl
    (by simp only; omega) (Nat.dvd_sub hq hqstart) (Or.inl rfl) (by simp only; omega)
    (by simp only; omega) (by simp only; omega) (Or.inl hfree) with
    ⟨hsegs, hlisted, htx, htb, hother⟩
  refine ⟨_, pre ++ [vm.nextTag], h.segs.insert_at (fun l =>
    btInsfree (splitTag vm bt _ _ l) vm.nextTag) vm.nextTag, ⟨?_, ?_, h.hashsize, h.quantum⟩, rfl, ?_, ?_⟩
  · rw [List.append_assoc, List.singleton_append]
    have hbS : bt ∈ ({bt} : Finset Nat) := Finset.mem_singleton_self bt
    refine Segs.of_eq (hsegs.settle_two (Finset.subset_insert _ _) (fun _ => ⟨fun p hp htype => ?_,
      fun hf => hf.1 hbS⟩) (fun hf => absurd hbS hf.1)) rfl rfl rfl rfl rfl
    -- The tag before the new one is not free, since the old one was.
    have hpin := List.mem_of_mem_getLast? hp
    have hpbt : p ≠ bt := fun heq => hbtpre (heq ▸ hpin)
    rw [hother p (hseg p (List.mem_append_left _ hpin)) hpbt] at htype
    exact hlast p hp htype
  · have herase : ({bt} : Finset Nat) = ({vm.nextTag, bt} : Finset Nat).erase vm.nextTag := by
      rw [Finset.erase_insert]
      rw [Finset.mem_singleton]
      exact (hfresh bt hbtseg).symm
    rw [herase]
    refine hlisted.insfree ?_ (Finset.mem_insert_self _ _) (by rw [htx])
    exact mem_flat.mpr ⟨_, List.mem_append_cons_self, Or.inr (List.mem_append_cons_self)⟩
  · exact htb.trans (by rw [hfree])
  intro t ht
  exact hother t (hseg t (List.mem_append_right _ (List.mem_cons_of_mem bt ht)))
    (fun heq => hbtpost (heq ▸ ht))

/-- Writing a tag that is worked on, where its addresses stay the same. -/
theorem Segs.retype (h : Segs vm S (G ++ (s, pre ++ bt :: post) :: Z)) (hbt : bt ∈ S)
    (type : BtType) (htype : type = .free ∨ type = .busy) :
    Segs (setTag vm bt { vm.tag bt with type := type }) S (G ++ (s, pre ++ bt :: post) :: Z) := by
  rcases h.apart_at with ⟨hnodup, hbtpre, hbtpost, -, hseg⟩
  have hok := h.spans _ (List.mem_append_cons_self)
  have hother : ∀ t, t ≠ bt → update vm.tag bt { vm.tag bt with type := type } t =
      vm.tag t := fun t hne => update_of_ne hne _ _
  refine h.replace h.seglist hnodup (fun t ht => Or.inl ht) le_rfl rfl rfl
    (fun t _ hnot => ⟨hother t (fun heq => ?_), Iff.rfl⟩) ?_
  · subst heq
    exact hnot (List.mem_append_cons_self)
  refine hok.refill (hother s h.span_at.2) ?_ ?_
  · rcases Tiles.split.mp hok.tiles with ⟨htpre, hpos, hq, -, htpost⟩
    have hself : (setTag vm bt { vm.tag bt with type := type }).tag bt =
        { vm.tag bt with type := type } := update_self _ _ _
    rw [Tiles.split, hself]
    exact ⟨htpre.congr (fun t ht => hother t (fun heq => hbtpre (heq ▸ ht))), hpos, hq, htype,
      htpost.congr (fun t ht => hother t (fun heq => hbtpost (heq ▸ ht)))⟩
  rcases apart_middle.mp hok.apart with ⟨hapre, hapost, -⟩
  exact apart_middle.mpr ⟨hapre.congr (fun t ht =>
      ⟨hother t (fun heq => hbtpre (heq ▸ ht)), fun hin => hin⟩),
    apart_cons.mpr ⟨(apart_cons.mp hapost).1.congr (fun t ht =>
      ⟨hother t (fun heq => hbtpost (heq ▸ ht)), fun hin => hin⟩),
      fun hf => absurd hbt hf.1⟩, fun hf => absurd hbt hf.1⟩

/-- What lies behind the allocation stays free. -/
theorem clipBack_ok {size : Nat} (h : Ok vm {bt} (G ++ (s, pre ++ bt :: post) :: Z))
    (hfree : (vm.tag bt).type = .free) (hhead : ∀ p ∈ post.head?, (vm.tag p).type ≠ .free)
    (hpos : 0 < size) (hle : size ≤ (vm.tag bt).size) (hq : vm.quantumMask + 1 ∣ size) :
    ∃ vm' gs, clipBack vm bt size = some vm' ∧ Ok vm' ∅ gs ∧ vm'.quantumMask = vm.quantumMask ∧
      ∃ t ∈ vm'.seglist, vm'.tag t = { start := (vm.tag bt).start, size := size, type := .busy } := by
  rcases h.segs.apart_at with ⟨hnodup, hbtpre, hbtpost, hbtseg, hseg⟩
  rcases h.segs.bounds_at with ⟨-, hword, hend, hqstart, hqsize⟩
  have hbin : bt ∈ ({bt} : Finset Nat) := Finset.mem_singleton_self bt
  have hempty : ({bt} : Finset Nat).erase bt = ∅ := by
    rw [Finset.erase_singleton]
  unfold clipBack
  simp only [wsub_eq hle hword]
  by_cases hsplit : (vm.tag bt).size ≠ size ∧ (vm.tag bt).size - size > vm.quantumMask
  · simp only [if_pos hsplit]
    have hlt : size < (vm.tag bt).size := by omega
    have hfresh : ∀ t ∈ vm.seglist, t ≠ vm.nextTag := fun t ht => ne_of_lt (h.segs.fresh t ht)
    have hxbt : vm.nextTag ≠ bt := (hfresh bt hbtseg).symm
    rw [wadd_eq (show (vm.tag bt).start + size < 2 ^ 64 by omega)]
    rcases splitTag_ok h ⟨(vm.tag bt).start, size, .busy⟩
      ⟨(vm.tag bt).start + size, (vm.tag bt).size - size, (vm.tag bt).type⟩ rfl hpos hq (Or.inr rfl)
      rfl (by simp only; omega) (by simp only; omega) (Or.inl hfree) with
      ⟨hsegs, hlisted, htx, htb, hother⟩
    have hxin : vm.nextTag ∈ flat (G ++ (s, pre ++ vm.nextTag :: bt :: post) :: Z) :=
      mem_flat.mpr ⟨_, List.mem_append_cons_self, Or.inr (List.mem_append_cons_self)⟩
    have hbtin : bt ∈ flat (G ++ (s, pre ++ vm.nextTag :: bt :: post) :: Z) :=
      mem_flat.mpr ⟨_, List.mem_append_cons_self,
        Or.inr (List.mem_append_right _ (List.mem_cons_of_mem _ List.mem_cons_self))⟩
    refine ⟨_, G ++ (s, pre ++ vm.nextTag :: bt :: post) :: Z, h.segs.insert_at (fun l => btInsbusy
      (btInsfree (splitTag vm bt _ _ l) bt) vm.nextTag) vm.nextTag,
      ⟨?_, ?_, h.hashsize, h.quantum⟩, rfl, vm.nextTag, hxin, htx⟩
    · refine Segs.of_eq (hsegs.settle_two (Finset.empty_subset _) (fun hf => ?_)
        (fun _ p hp htype => ?_)) rfl rfl rfl rfl rfl
      · -- The allocation is busy.
        have htype := hf.2
        rw [htx] at htype
        cases htype
      · have hpin := List.mem_of_mem_head? hp
        rw [hother p (hseg p (List.mem_append_right _ (List.mem_cons_of_mem _ hpin)))
          (fun heq => hbtpost (heq ▸ hpin))] at htype
        exact hhead p hp htype
    · have herase : (({vm.nextTag, bt} : Finset Nat).erase bt).erase vm.nextTag = ∅ := by
        rw [Finset.erase_right_comm, Finset.erase_insert (by rwa [Finset.mem_singleton]), hempty]
      rw [← herase]
      refine (hlisted.insfree hbtin (Finset.mem_insert_of_mem hbin) ?_).insbusy hxin ?_ ?_
      · rw [htb]
        exact hfree
      · exact Finset.mem_erase.mpr ⟨hxbt, Finset.mem_insert_self _ _⟩
      · change (Arena.tag (splitTag _ _ _ _ _) vm.nextTag).type = _
        rw [htx]
  · simp only [if_neg hsplit]
    -- All of the tag is taken.
    have hsize : (vm.tag bt).size = size := by
      by_contra hne
      have hdvd := Nat.dvd_sub hqsize hq
      have := Nat.le_of_dvd (by omega) hdvd
      omega
    have htag : (setTag vm bt { vm.tag bt with type := .busy }).tag bt =
        { vm.tag bt with type := .busy } := update_self _ _ _
    refine ⟨_, _, rfl, ⟨Segs.of_eq ((h.segs.retype hbin .busy (Or.inr rfl)).settle_one (fun hf => ?_))
      rfl rfl rfl rfl rfl, ?_, h.hashsize, h.quantum⟩, rfl, bt, hbtseg, ?_⟩
    · rw [htag] at hf
      cases hf
    · rw [← hempty]
      exact (h.listed.setTag hbin _).insbusy hbtseg hbin (by rw [htag])
    · rw [← hsize]
      exact htag

/-- A free tag is not worked on, so its neighbours are not free. -/
theorem Segs.neighbours (h : Segs vm ∅ (G ++ (s, pre ++ bt :: post) :: Z))
    (hfree : (vm.tag bt).type = .free) : (∀ p ∈ pre.getLast?, (vm.tag p).type ≠ .free) ∧
      ∀ p ∈ post.head?, (vm.tag p).type ≠ .free := by
  have hok := h.spans _ (List.mem_append_cons_self)
  rcases apart_middle.mp hok.apart with ⟨-, hpost, hlast⟩
  have hbt : FreeTile vm.tag ∅ bt := ⟨Finset.notMem_empty bt, hfree⟩
  exact ⟨fun p hp htype => hlast hbt p hp ⟨Finset.notMem_empty p, htype⟩,
    fun p hp htype => (apart_cons.mp hpost).2 hbt p hp ⟨Finset.notMem_empty p, htype⟩⟩

/-- An allocation inside a free tag. -/
theorem vmemClip_ok {gs : List (Nat × List Nat)} (h : Ok vm ∅ gs) {start size : Nat}
    (hbt : bt ∈ vm.seglist) (hfree : (vm.tag bt).type = .free) (hlo : (vm.tag bt).start ≤ start)
    (hhi : start + size ≤ (vm.tag bt).start + (vm.tag bt).size) (hpos : 0 < size)
    (hqstart : vm.quantumMask + 1 ∣ start) (hqsize : vm.quantumMask + 1 ∣ size) :
    ∃ vm' gs', vmemClip vm bt start size = some vm' ∧ Ok vm' ∅ gs' ∧
      vm'.quantumMask = vm.quantumMask ∧
      ∃ t ∈ vm'.seglist, vm'.tag t = { start := start, size := size, type := .busy } := by
  rcases h.segs.place hbt (by rw [isSpan, hfree]; rfl) with ⟨G, s, pre, post, Z, rfl⟩
  rcases h.segs.neighbours hfree with ⟨hlast, hhead⟩
  have hwork : Ok (btRemfree vm bt) {bt} (G ++ (s, pre ++ bt :: post) :: Z) :=
    ⟨Segs.of_eq (h.segs.mono (Finset.empty_subset _)) rfl rfl rfl rfl rfl, h.listed.remfree hfree,
      h.hashsize, h.quantum⟩
  rcases clipFront_ok hwork hfree hlast hlo (show start <
    (vm.tag bt).start + (vm.tag bt).size by omega) hqstart with ⟨vm₁, pre₁, hfront, hok₁, hq₁, htag₁,
    hpost₁⟩
  have hhead₁ : ∀ p ∈ post.head?, (vm₁.tag p).type ≠ .free := by
    intro p hp
    rw [hpost₁ p (List.mem_of_mem_head? hp)]
    exact hhead p hp
  have hle : size ≤ (vm₁.tag bt).size := by
    rw [htag₁]
    exact Nat.le_sub_of_add_le' hhi
  rcases clipBack_ok hok₁ (by rw [htag₁]) hhead₁ hpos hle (by rwa [hq₁]) with
    ⟨vm₂, gs', hback, hok₂, hq₂, t, ht, htag₂⟩
  refine ⟨vm₂, gs', ?_, hok₂, hq₂.trans hq₁, t, ht, ?_⟩
  · rw [vmemClip, hfront]
    exact hback
  · rw [htag₂, htag₁]

end FreeBSDKern.Vmem
