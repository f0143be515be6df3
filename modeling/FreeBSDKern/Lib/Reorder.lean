import Mathlib

/-!
# Handing Out Order Numbers Again

A numbering of vertices is repaired by taking the numbers of some of them and
handing the same numbers out again in another order: first to one list, then to
a second. Both lists are sorted by their old numbers and so are the numbers
themselves, so the first list moves down, the second moves up, and neither is
disordered in itself.

The two bounds are facts about a sorted list and a part of it. Position by
position, the front of the whole is below the part and the back of the whole is
above it.

## Main definitions

* `reassign`: The numbering after a list of vertices was given a list of numbers.
* `Sorted`: A list of vertices in increasing order of their numbers.

## Theorems

* `map_reassign`: The listed vertices carry the listed numbers.
* `forall₂_take_le`: The front of a sorted list is below any part of it.
* `forall₂_le_drop`: The back of a sorted list is above any part of it.
* `reassign_split`: What becomes of the numbers of two lists.
-/

namespace FreeBSDKern.Lib

open Function

variable {V : Type*} [DecidableEq V]

/-- The numbering after the vertices of a list were given the numbers of
    another, one by one. -/
def reassign : (V → Nat) → List V → List Nat → V → Nat
  | o, v :: vs, i :: is => reassign (update o v i) vs is
  | o, _, _ => o

/-- In increasing order of the numbers. -/
def Sorted (o : V → Nat) (vs : List V) : Prop := vs.Pairwise (fun a b => o a < o b)

theorem reassign_of_notMem (vs : List V) : ∀ (o : V → Nat) (is : List Nat) (v : V), v ∉ vs →
    reassign o vs is v = o v := by
  induction vs with
  | nil => intro o is v _; rfl
  | cons w vs ih =>
    intro o is v hv
    cases is with
    | nil => rfl
    | cons i is =>
      rw [List.mem_cons, not_or] at hv
      rw [reassign, ih _ is v hv.2, update_of_ne hv.1]

theorem map_reassign (vs : List V) : ∀ (o : V → Nat) (is : List Nat), vs.Nodup →
    vs.length = is.length → vs.map (reassign o vs is) = is := by
  induction vs with
  | nil =>
    intro o is _ hlen
    exact (List.length_eq_zero_iff.mp hlen.symm).symm
  | cons v vs ih =>
    intro o is hnodup hlen
    cases is with
    | nil => simp at hlen
    | cons i is =>
      rw [List.nodup_cons] at hnodup
      rw [List.map_cons, reassign, reassign_of_notMem vs _ is v hnodup.1, update_self,
        ih _ is hnodup.2 (by simpa using hlen)]

theorem forall₂_take_le (S : List Nat) : ∀ (l : List Nat), S.Sublist l → l.Pairwise (· ≤ ·) →
    List.Forall₂ (fun s i => i ≤ s) S (l.take S.length) := by
  induction S with
  | nil => intro l _ _; exact List.Forall₂.nil
  | cons s S ih =>
    intro l hsub hl
    cases l with
    | nil => cases hsub.length_le
    | cons i l =>
      rw [List.pairwise_cons] at hl
      refine List.Forall₂.cons ?_ (ih l hsub.tail hl.2)
      rcases List.mem_cons.mp (hsub.subset (List.mem_cons_self ..)) with heq | hin
      · exact le_of_eq heq.symm
      · exact hl.1 s hin

theorem forall₂_le_drop (l S : List Nat) (hsub : S.Sublist l) (hl : l.Pairwise (· ≤ ·)) :
    List.Forall₂ (fun s i => s ≤ i) S (l.drop (l.length - S.length)) := by
  induction hsub with
  | slnil => exact List.Forall₂.nil
  | @cons S l a hsub ih =>
    have hlen := hsub.length_le
    rw [List.length_cons, Nat.succ_sub hlen, List.drop_succ_cons]
    exact ih (List.pairwise_cons.mp hl).2
  | @cons_cons S l a hsub ih =>
    have hlen := hsub.length_le
    have hrest := ih (List.pairwise_cons.mp hl).2
    rw [List.length_cons, List.length_cons, Nat.add_sub_add_right]
    rcases hd : l.length - S.length with _ | d
    · rw [hd] at hrest
      exact List.Forall₂.cons le_rfl hrest
    -- The part skips something, so its last numbers lie at least one place
    -- further back.
    rw [hd] at hrest
    rw [List.drop_succ_cons, List.drop_eq_getElem_cons (by omega)]
    exact List.Forall₂.cons ((List.pairwise_cons.mp hl).1 _ (List.getElem_mem _)) hrest

/-- Two lists given the sorted numbers of both, the first list first. -/
structure Split (o o' : V → Nat) (B F : List V) (is : List Nat) : Prop where
  other : ∀ v, v ∉ B → v ∉ F → o' v = o v
  down : ∀ v ∈ B, o' v ≤ o v
  up : ∀ v ∈ F, o v ≤ o' v
  numbers : (B ++ F).map o' = is
  fst : ∀ u ∈ B, ∀ w ∈ B, o u < o w → o' u < o' w
  snd : ∀ u ∈ F, ∀ w ∈ F, o u < o w → o' u < o' w
  apart : ∀ u ∈ B, ∀ w ∈ F, o' u < o' w

omit [DecidableEq V] in
theorem Sorted.nodup {o : V → Nat} {vs : List V} (h : Sorted o vs) : vs.Nodup := by
  refine List.Pairwise.imp (fun {a b} hlt => ?_) h
  rintro rfl
  exact lt_irrefl _ hlt

omit [DecidableEq V] in
/-- Two numberings that increase along a list agree on it. -/
theorem lt_of_sorted (o o' : V → Nat) (vs : List V) (h : Sorted o vs) (h' : Sorted o' vs) :
    ∀ u ∈ vs, ∀ w ∈ vs, o u < o w → o' u < o' w := by
  induction vs with
  | nil => intro u hu; exact absurd hu List.not_mem_nil
  | cons v vs ih =>
    rw [Sorted, List.pairwise_cons] at h h'
    intro u hu w hw hlt
    rcases List.mem_cons.mp hu with rfl | hu'
    · rcases List.mem_cons.mp hw with rfl | hw'
      · exact absurd hlt (lt_irrefl _)
      · exact h'.1 w hw'
    rcases List.mem_cons.mp hw with rfl | hw'
    · exact absurd hlt (Nat.lt_asymm (h.1 u hu'))
    · exact ih h.2 h'.2 u hu' w hw' hlt

omit [DecidableEq V] in
theorem forall₂_map_iff (R : Nat → Nat → Prop) (o o' : V → Nat) (vs : List V) :
    List.Forall₂ R (vs.map o) (vs.map o') ↔ ∀ v ∈ vs, R (o v) (o' v) := by
  induction vs with
  | nil => simp
  | cons v vs ih => simp only [List.map_cons, List.forall₂_cons, ih, List.forall_mem_cons]

/-- What becomes of the numbers of two lists: the first moves down, the second
    moves up, the order inside each is kept, and all of the first comes before
    all of the second. -/
theorem reassign_split (o : V → Nat) (B F : List V) (is : List Nat) (hB : Sorted o B)
    (hF : Sorted o F) (hdisj : ∀ v ∈ B, v ∉ F) (his : is.Pairwise (· < ·))
    (hperm : is.Perm (B.map o ++ F.map o)) :
    Split o (reassign (reassign o B (is.take B.length)) F (is.drop B.length)) B F is := by
  generalize hmid : reassign o B (is.take B.length) = mid
  generalize hfin : reassign mid F (is.drop B.length) = o'
  have hlen := hperm.length_eq
  rw [List.length_append, List.length_map, List.length_map] at hlen
  have hle : is.Pairwise (· ≤ ·) := his.imp le_of_lt
  -- The first list keeps its numbers when the second is served.
  have hBmap : B.map o' = is.take B.length := by
    rw [← map_reassign B o (is.take B.length) hB.nodup (by rw [List.length_take]; omega), hmid,
      ← hfin]
    exact List.map_congr_left (fun v hv => reassign_of_notMem F mid _ v (hdisj v hv))
  have hFmap : F.map o' = is.drop B.length := by
    rw [← hfin]
    exact map_reassign F mid _ hF.nodup (by rw [List.length_drop]; omega)
  have hmap : (B ++ F).map o' = is := by
    rw [List.map_append, hBmap, hFmap, List.take_append_drop]
  have hsorted : Sorted o' (B ++ F) := by
    rw [Sorted, ← List.pairwise_map (R := (· < ·)), hmap]
    exact his
  rw [Sorted, List.pairwise_append] at hsorted
  -- A sorted list contains the sorted numbers of either list as a part.
  have hpart : ∀ vs : List V, Sorted o vs → (∀ v ∈ vs, o v ∈ is) → (vs.map o).Sublist is := by
    intro vs hvs hin
    have hvs' : (vs.map o).Pairwise (· < ·) := List.pairwise_map.mpr hvs
    refine List.sublist_of_subperm_of_pairwise (r := (· ≤ ·)) (List.subperm_of_subset
      (hvs'.imp ne_of_lt) (fun i hi => ?_)) (hvs'.imp le_of_lt) hle
    rcases List.mem_map.mp hi with ⟨v, hv, rfl⟩
    exact hin v hv
  have hBin : ∀ v ∈ B, o v ∈ is := fun v hv =>
    hperm.mem_iff.mpr (List.mem_append_left _ (List.mem_map_of_mem hv))
  have hFin : ∀ v ∈ F, o v ∈ is := fun v hv =>
    hperm.mem_iff.mpr (List.mem_append_right _ (List.mem_map_of_mem hv))
  refine ⟨fun v hvB hvF => ?_, ?_, ?_, hmap, lt_of_sorted o o' B hB hsorted.1,
    lt_of_sorted o o' F hF hsorted.2.1, hsorted.2.2⟩
  · rw [← hfin, reassign_of_notMem F mid _ v hvF, ← hmid, reassign_of_notMem B o _ v hvB]
  · have hdown := forall₂_take_le (B.map o) is (hpart B hB hBin) hle
    rw [List.length_map, ← hBmap, forall₂_map_iff] at hdown
    exact hdown
  have hup := forall₂_le_drop is (F.map o) (hpart F hF hFin) hle
  rw [List.length_map, show is.length - F.length = B.length by omega, ← hFmap,
    forall₂_map_iff] at hup
  exact hup

end FreeBSDKern.Lib
