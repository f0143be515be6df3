import FreeBSDKern.Unit.Bits

/-!
# Collapsing an Element

`collapse_unr` is called on the one element an operation has touched. That
element may be broken in ways the list never is between operations: a run may
have become empty, a bitmap may have become all set or all clear, a run may
stand next to another of its kind. What is left of it and of its neighbours is
put together again, the ends of the list are folded into `first` and `last`,
and the string of bits comes out as it went in.

## Main definitions

* `HotOk`: What an operation may leave behind in the element it touched.
* `units`: The string of a whole number space.
* `Sound`: The invariant of a number space between operations.

## Theorems

* `mergeNeighbors_spec`: Merging keeps the string and makes the list sound.
* `mergeEnds_spec`: So does folding the ends into `first` and `last`.
* `collapseUnr_spec`: The whole of it, on any touched element.
-/

namespace FreeBSDKern.Unit

/-- What an operation may leave behind in the element it touched: a run of any
    length, or a bitmap that may have become all set or all clear. -/
def HotOk (up : Unr) : Prop :=
  ∀ ub, up.ptr = .bitmap ub →
    up.len ≤ nbits ∧ 0 < up.len ∧ ub.busy = (mapBits ub.map up.len).count true

/-- The string of a number space. -/
def units (uh : Unrhdr) : List Bool :=
  List.replicate uh.first true ++ bits uh.head ++ List.replicate uh.last false

/-- A number space between operations. -/
structure Sound (uh : Unrhdr) : Prop where
  list : ListOk uh.head
  front : ∀ up, uh.head.head? = some up → up.ptr ≠ .uh
  back : ∀ up, uh.head.getLast? = some up → up.ptr ≠ .null

theorem hotOk_run (len : Nat) (ptr : Ptr) (h : isBitmap ⟨len, ptr⟩ = false) : HotOk ⟨len, ptr⟩ := by
  intro ub hub
  simp only at hub
  rw [hub] at h
  cases h

theorem elemOk_run (len : Nat) (ptr : Ptr) (h : isBitmap ⟨len, ptr⟩ = false) (hlen : 0 < len) :
    ElemOk ⟨len, ptr⟩ := by
  refine ⟨hlen, fun ub hub => ?_⟩
  simp only at hub
  rw [hub] at h
  cases h

theorem samePtr_comm (a b : Unr) : samePtr a b = samePtr b a := by
  rcases a with ⟨n, ptr⟩
  rcases b with ⟨m, ptr'⟩
  cases ptr <;> cases ptr' <;> rfl

/-- Elements of one kind have the same neighbours. -/
theorem samePtr_congr (a b x : Unr) (h : samePtr a b = true) : samePtr a x = samePtr b x := by
  rcases a with ⟨n, ptr⟩
  rcases b with ⟨m, ptr'⟩
  cases ptr <;> cases ptr' <;> first | rfl | cases h

variable (alloc : Nat) (uh : Unrhdr) (pre : List Unr) (up : Unr) (post : List Unr)

/-- Two runs of one kind are one run. -/
theorem elemBits_merge (upp : Unr) (h : samePtr up upp = true) :
    elemBits { up with len := up.len + upp.len } = elemBits upp ++ elemBits up ∧
      elemBits { up with len := up.len + upp.len } = elemBits up ++ elemBits upp := by
  rcases up with ⟨n, ptr⟩
  rcases upp with ⟨m, ptr'⟩
  cases ptr <;> cases ptr' <;> try cases h
  all_goals
    simp only [elemBits, List.replicate_append_replicate, and_true]
    rw [Nat.add_comm]

theorem elemOk_merge (upp : Unr) (h : samePtr up upp = true) (hup : ElemOk up) :
    ElemOk { up with len := up.len + upp.len } := by
  rcases up with ⟨n, ptr⟩
  cases ptr with
  | null | uh => exact elemOk_run _ _ rfl (Nat.add_pos_left hup.1 _)
  | bitmap ub => rw [samePtr_bitmap] at h; cases h

theorem samePtr_len (x : Unr) (n : Nat) : samePtr { up with len := n } x = samePtr up x := rfl

theorem listOk_nil : ListOk [] := ⟨fun x hx => by simp at hx, List.isChain_nil⟩

theorem listOk_singleton (h : ElemOk up) : ListOk [up] :=
  ⟨fun x hx => by rwa [List.mem_singleton.mp hx], List.isChain_singleton up⟩

/-- An element behind a list that ends in another kind. -/
theorem ListOk.concat {l : List Unr} (h : ListOk l) (up : Unr) (hup : ElemOk up)
    (hseam : ∀ x, l.getLast? = some x → samePtr x up = false) : ListOk (l ++ [up]) := by
  refine h.append (listOk_singleton up hup) (fun x hx y hy => ?_)
  rw [List.head?_cons, Option.mem_some_iff] at hy
  exact hy ▸ hseam x hx

/-- The seam of a sound list. -/
theorem ListOk.seam {l m : List Unr} (h : ListOk (l ++ m)) (x y : Unr) (hx : l.getLast? = some x)
    (hy : m.head? = some y) : samePtr x y = false :=
  (List.isChain_append.mp h.chain).2.2 x hx y hy

theorem mergePrev_spec (hpre : ListOk pre) (hup : ElemOk up) :
    ∃ alloc' pre' up', mergePrev alloc pre up = (alloc', pre', up') ∧
      ListOk (pre' ++ [up']) ∧ bits pre' ++ elemBits up' = bits pre ++ elemBits up := by
  rcases List.eq_nil_or_concat pre with rfl | ⟨pre', upp, rfl⟩
  · exact ⟨alloc, [], up, rfl, listOk_singleton up hup, rfl⟩
  rw [List.concat_eq_append] at *
  by_cases hsame : samePtr up upp = true
  · refine ⟨alloc - 1, pre', { up with len := up.len + upp.len }, ?_, ?_, ?_⟩
    · simp only [mergePrev, List.getLast?_concat, hsame, if_true, List.dropLast_concat]
    · refine hpre.append_left.concat _ (elemOk_merge up upp hsame hup) (fun x hx => ?_)
      -- The merged run is of the kind of the one it replaces.
      rw [samePtr_comm, samePtr_len, samePtr_congr up upp x hsame, samePtr_comm]
      exact hpre.seam x upp hx rfl
    · rw [(elemBits_merge up upp hsame).1, bits_append, bits_cons, bits_nil, List.append_nil,
        List.append_assoc]
  refine ⟨alloc, pre' ++ [upp], up, ?_, ?_, rfl⟩
  · simp only [mergePrev, List.getLast?_concat, hsame, Bool.false_eq_true, if_false]
  refine hpre.concat up hup (fun x hx => ?_)
  rw [List.getLast?_concat, Option.some.injEq] at hx
  rw [← hx, samePtr_comm]
  exact Bool.eq_false_iff.mpr hsame

theorem mergeNext_spec (hpre : ListOk (pre ++ [up])) (hpost : ListOk post) :
    ∃ alloc' l, mergeNext alloc up post = (alloc', l) ∧
      ListOk (pre ++ l) ∧ bits l = elemBits up ++ bits post := by
  have hup := hpre.elems up (List.mem_append_right pre (List.mem_singleton_self up))
  cases post with
  | nil => exact ⟨alloc, [up], rfl, hpre, rfl⟩
  | cons upp post =>
    by_cases hsame : samePtr up upp = true
    · refine ⟨alloc - 1, { up with len := up.len + upp.len } :: post, ?_, ?_, ?_⟩
      · simp only [mergeNext, hsame, if_true]
      · have hmid : ListOk (pre ++ [{ up with len := up.len + upp.len }]) := by
          refine hpre.append_left.concat _ (elemOk_merge up upp hsame hup) (fun x hx => ?_)
          rw [samePtr_comm, samePtr_len, samePtr_comm]
          exact hpre.seam x up hx rfl
        rw [List.append_cons]
        refine hmid.append hpost.tail (fun x hx y hy => ?_)
        rw [List.getLast?_concat, Option.mem_some_iff] at hx
        rw [← hx, samePtr_len, samePtr_congr up upp y hsame]
        exact hpost.seam (l := [upp]) upp y rfl hy
      · rw [bits_cons, (elemBits_merge up upp hsame).2, bits_cons, List.append_assoc]
    refine ⟨alloc, up :: upp :: post, ?_, ?_, rfl⟩
    · simp only [mergeNext, hsame, Bool.false_eq_true, if_false]
    rw [List.append_cons]
    refine hpre.append hpost (fun x hx y hy => ?_)
    rw [List.getLast?_concat, Option.mem_some_iff] at hx
    rw [List.head?_cons, Option.mem_some_iff] at hy
    exact hx ▸ hy ▸ Bool.eq_false_iff.mpr hsame

theorem mergeNeighbors_spec (hpre : ListOk pre) (hup : ElemOk up) (hpost : ListOk post) :
    ListOk (mergeNeighbors alloc pre up post).2 ∧
      bits (mergeNeighbors alloc pre up post).2 = bits pre ++ elemBits up ++ bits post := by
  rcases mergePrev_spec alloc pre up hpre hup with ⟨alloc', pre', up', hprev, hok, hbits⟩
  rcases mergeNext_spec alloc' pre' up' post hok hpost with ⟨alloc'', l, hnext, hok', hbits'⟩
  simp only [mergeNeighbors, hprev, hnext]
  refine ⟨hok', ?_⟩
  rw [bits_append, hbits', ← List.append_assoc, hbits]

theorem plainRun_spec (hup : HotOk up) :
    elemBits (plainRun alloc up).2 = elemBits up ∧ (plainRun alloc up).2.len = up.len ∧
      (0 < up.len → ElemOk (plainRun alloc up).2) := by
  rcases up with ⟨len, ptr⟩
  cases ptr with
  | null => exact ⟨rfl, rfl, elemOk_run len .null rfl⟩
  | uh => exact ⟨rfl, rfl, elemOk_run len .uh rfl⟩
  | bitmap ub =>
    rcases hup ub rfl with ⟨hle, hpos, hbusy⟩
    simp only [plainRun] at hle hpos hbusy ⊢
    have hcount : (mapBits ub.map len).count true ≤ (mapBits ub.map len).length :=
      List.count_le_length
    rw [mapBits_length] at hcount
    by_cases hfull : ub.busy = len
    · -- Every bit is set.
      rw [if_pos hfull]
      refine ⟨?_, rfl, elemOk_run len .uh rfl⟩
      have hall := List.count_eq_length.mp (show (mapBits ub.map len).count true
        = (mapBits ub.map len).length by rw [mapBits_length]; omega)
      exact (List.eq_replicate_iff.mpr ⟨mapBits_length ub.map len, fun b hb =>
        (hall b hb).symm⟩).symm
    rw [if_neg hfull]
    by_cases hnone : ub.busy = 0
    · rw [if_pos hnone]
      refine ⟨?_, rfl, elemOk_run len .null rfl⟩
      have hnot : true ∉ mapBits ub.map len := List.count_eq_zero.mp (by omega)
      refine (List.eq_replicate_iff.mpr ⟨mapBits_length ub.map len, fun b hb => ?_⟩).symm
      cases b with
      | true => exact absurd hb hnot
      | false => rfl
    · rw [if_neg hnone]
      exact ⟨rfl, rfl, fun _ => elemOk_bitmap len ub ⟨hle, hbusy, by omega, by omega⟩⟩

theorem elemBits_of_len_zero (h : up.len = 0) : elemBits up = [] :=
  List.length_eq_zero_iff.mp (by rw [elemBits_length, h])

theorem mergeHotSpot_spec (hpre : ListOk pre) (hup : 0 < up.len → ElemOk up) (hpost : ListOk post) :
    ListOk (mergeHotSpot alloc pre up post).2 ∧
      bits (mergeHotSpot alloc pre up post).2 = bits pre ++ elemBits up ++ bits post := by
  unfold mergeHotSpot
  by_cases hzero : up.len = 0
  · rw [if_pos hzero, elemBits_of_len_zero up hzero, List.append_nil]
    rcases List.eq_nil_or_concat pre with rfl | ⟨pre', upp, rfl⟩
    · cases post with
      | nil => exact ⟨listOk_nil, rfl⟩
      | cons upp post =>
        exact mergeNeighbors_spec (alloc - 1) [] upp post listOk_nil
          (hpost.elems upp (List.mem_cons_self ..)) hpost.tail
    rw [List.concat_eq_append] at *
    simp only [List.getLast?_concat, List.dropLast_concat]
    have hmerge := mergeNeighbors_spec (alloc - 1) pre' upp post hpre.append_left
      (hpre.elems upp (List.mem_append_right pre' (List.mem_singleton_self upp))) hpost
    rwa [bits_append, bits_cons, bits_nil, List.append_nil]
  · rw [if_neg hzero]
    exact mergeNeighbors_spec alloc pre up post hpre (hup (by omega)) hpost

theorem mergeFirst_spec (h : ListOk uh.head) :
    ListOk (mergeFirst uh).head ∧ units (mergeFirst uh) = units uh ∧
      (∀ up, (mergeFirst uh).head.head? = some up → up.ptr ≠ .uh) := by
  rcases uh with ⟨head, low, high, busy, alloc, first, last⟩
  cases head with
  | nil => exact ⟨h, rfl, nofun⟩
  | cons upp rest =>
    rcases upp with ⟨len, ptr⟩
    cases ptr with
    | null | bitmap ub => exact ⟨h, rfl, fun up hup => by cases hup; exact Ptr.noConfusion⟩
    | uh =>
      refine ⟨h.tail, ?_, fun up hup heq => ?_⟩
      · simp only [units, mergeFirst, bits_cons, elemBits, ← List.append_assoc,
          List.replicate_append_replicate]
      have hseam := h.seam (l := [⟨len, .uh⟩]) _ up rfl hup
      rcases up with ⟨n, ptr⟩
      simp only at heq
      rw [heq] at hseam
      cases hseam

theorem mergeLast_spec (h : ListOk uh.head) (hfront : ∀ up, uh.head.head? = some up → up.ptr ≠ .uh)
    : Sound (mergeLast uh) ∧ units (mergeLast uh) = units uh := by
  rcases uh with ⟨head, low, high, busy, alloc, first, last⟩
  rcases List.eq_nil_or_concat head with rfl | ⟨rest, upp, rfl⟩
  · exact ⟨⟨h, hfront, nofun⟩, rfl⟩
  rw [List.concat_eq_append] at *
  simp only [mergeLast, List.getLast?_concat]
  rcases upp with ⟨len, ptr⟩
  cases ptr with
  | uh | bitmap ub =>
    refine ⟨⟨h, hfront, fun up hup => ?_⟩, rfl⟩
    rw [List.getLast?_concat, Option.some.injEq] at hup
    exact hup ▸ Ptr.noConfusion
  | null =>
    simp only [List.dropLast_concat]
    refine ⟨⟨h.append_left, fun up hup => ?_, fun up hup heq => ?_⟩, ?_⟩
    · refine hfront up ?_
      cases rest with
      | nil => cases hup
      | cons x xs => exact hup
    · have hseam := h.seam up _ hup rfl
      rcases up with ⟨n, ptr⟩
      simp only at heq
      rw [heq] at hseam
      cases hseam
    · simp only [units, bits_append, bits_cons, bits_nil, elemBits, List.append_nil,
        List.append_assoc, List.replicate_append_replicate, Nat.add_comm]

theorem mergeFirst_range : (mergeFirst uh).low = uh.low ∧ (mergeFirst uh).high = uh.high := by
  unfold mergeFirst
  split
  · split <;> exact ⟨rfl, rfl⟩
  · exact ⟨rfl, rfl⟩

theorem mergeLast_range : (mergeLast uh).low = uh.low ∧ (mergeLast uh).high = uh.high := by
  unfold mergeLast
  split
  · split <;> exact ⟨rfl, rfl⟩
  · exact ⟨rfl, rfl⟩

/-- A number space whose list was gathered further. -/
theorem sound_optimizeLoop (fuel : Nat) (h : Sound uh) :
    Sound { uh with head := (optimizeLoop fuel uh.alloc uh.head).2,
                    alloc := (optimizeLoop fuel uh.alloc uh.head).1 } ∧
      bits (optimizeLoop fuel uh.alloc uh.head).2 = bits uh.head := by
  rcases optimizeLoop_spec fuel uh.alloc uh.head h.list with ⟨hok, hbits, hfront, hback⟩
  refine ⟨⟨hok, fun up hup heq => ?_, fun up hup heq => ?_⟩, hbits⟩
  · rcases hfront up hup with hold | hmap
    · exact h.front up hold heq
    · rw [isBitmap, heq] at hmap; cases hmap
  rcases hback up hup with hold | hmap
  · exact h.back up hold heq
  · rw [isBitmap, heq] at hmap; cases hmap

/-- Collapsing keeps the string, whatever was left of the touched element, and
    the number space is sound again. -/
theorem collapseUnr_spec (hpre : ListOk pre) (hup : HotOk up) (hpost : ListOk post) :
    Sound (collapseUnr uh pre up post) ∧
      units (collapseUnr uh pre up post) = List.replicate uh.first true ++ bits pre ++ elemBits up ++
        bits post ++ List.replicate uh.last false ∧
      (collapseUnr uh pre up post).low = uh.low ∧ (collapseUnr uh pre up post).high = uh.high := by
  rcases plainRun_spec uh.alloc up hup with ⟨hbits, hlen, hok⟩
  rcases mergeHotSpot_spec (plainRun uh.alloc up).1 pre (plainRun uh.alloc up).2 post hpre
    (hlen.symm ▸ hok) hpost with ⟨hlist, hstr⟩
  unfold collapseUnr
  simp only
  generalize hm : mergeHotSpot (plainRun uh.alloc up).1 pre (plainRun uh.alloc up).2 post = m
    at hlist hstr
  rcases mergeFirst_spec { uh with head := m.2, alloc := m.1 } hlist with ⟨hl1, hu1, hf1⟩
  rcases mergeLast_spec _ hl1 hf1 with ⟨hs2, hu2⟩
  rcases sound_optimizeLoop _ (mergeLast (mergeFirst { uh with head := m.2, alloc := m.1 })).head.length
    hs2 with ⟨hs3, hu3⟩
  refine ⟨hs3, ?_, ?_⟩
  · rw [units, hu3]
    change units (mergeLast _) = _
    rw [hu2, hu1, units, hstr, hbits]
    simp only [List.append_assoc]
  have hlast := mergeLast_range (mergeFirst { uh with head := m.2, alloc := m.1 })
  have hfirst := mergeFirst_range { uh with head := m.2, alloc := m.1 }
  exact ⟨hlast.1.trans hfirst.1, hlast.2.trans hfirst.2⟩

end FreeBSDKern.Unit
