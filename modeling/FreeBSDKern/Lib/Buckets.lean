import Mathlib

/-!
# Buckets

A table of lists in which every element of a collection stands once, in the list
its key selects. Size classes and hash chains are of this kind.

## Main definitions

* `Bucketed`: The elements of a collection are in their buckets.

## Theorems

* `Bucketed.erase`, `Bucketed.push`: One element leaves or enters.
-/

namespace FreeBSDKern.Lib

open Function

variable {α ι : Type*} [DecidableEq α] [DecidableEq ι]

/-- The elements of a collection are in the buckets their keys select, once
    each, and nothing else is. -/
structure Bucketed (T : ι → List α) (D : α → Prop) (key : α → ι) : Prop where
  mem : ∀ i t, t ∈ T i ↔ D t ∧ key t = i
  nodup : ∀ i, (T i).Nodup

namespace Bucketed

variable {T : ι → List α} {D D' : α → Prop} {key key' : α → ι}

omit [DecidableEq α] [DecidableEq ι] in
theorem congr (h : Bucketed T D key) (hD : ∀ t, D' t ↔ D t) (hkey : ∀ t, D t → key' t = key t) :
    Bucketed T D' key' := by
  refine ⟨fun i t => ?_, h.nodup⟩
  rw [h.mem i t, hD t]
  refine and_congr_right (fun ht => ?_)
  rw [hkey t ht]

omit [DecidableEq ι] in
theorem erase (h : Bucketed T D key) (x : α) :
    Bucketed (fun i => (T i).erase x) (fun t => D t ∧ t ≠ x) key := by
  refine ⟨fun i t => ?_, fun i => (h.nodup i).erase x⟩
  rw [(h.nodup i).mem_erase_iff, h.mem i t]
  constructor
  · rintro ⟨hne, hD, hkey⟩
    exact ⟨⟨hD, hne⟩, hkey⟩
  · rintro ⟨⟨hD, hne⟩, hkey⟩
    exact ⟨hne, hD, hkey⟩

/-- Only the bucket the key selects is changed by that. -/
theorem erase_at (h : Bucketed T D key) (x : α) :
    Bucketed (update T (key x) ((T (key x)).erase x)) (fun t => D t ∧ t ≠ x) key := by
  have hlist : update T (key x) ((T (key x)).erase x) = fun i => (T i).erase x := by
    ext1 i
    rw [update_apply]
    split
    case isTrue hi => rw [hi]
    case isFalse hi =>
      refine (List.erase_of_not_mem (fun hin => hi ?_)).symm
      exact ((h.mem i x).mp hin).2.symm
  rw [hlist]
  exact h.erase x

omit [DecidableEq α] [DecidableEq ι] in
/-- The order inside the buckets does not matter. -/
theorem perm {T' : ι → List α} (h : Bucketed T D key) (hT : ∀ i, (T' i).Perm (T i)) :
    Bucketed T' D key :=
  ⟨fun i t => (hT i).mem_iff.trans (h.mem i t), fun i => (hT i).nodup_iff.mpr (h.nodup i)⟩

omit [DecidableEq α] in
theorem push (h : Bucketed T D key) {x : α} (hx : ¬ D x) :
    Bucketed (update T (key x) (x :: T (key x))) (fun t => D t ∨ t = x) key := by
  have hlist : ∀ i, update T (key x) (x :: T (key x)) i = if i = key x then x :: T i else T i := by
    intro i
    rw [update_apply]
    by_cases hi : i = key x
    · rw [if_pos hi, if_pos hi, hi]
    · rw [if_neg hi, if_neg hi]
  refine ⟨fun i t => ?_, fun i => ?_⟩
  · rw [hlist i]
    by_cases hi : i = key x
    · subst hi
      rw [if_pos rfl, List.mem_cons, h.mem]
      constructor
      · rintro (rfl | ⟨hD, hkey⟩)
        · exact ⟨Or.inr rfl, rfl⟩
        · exact ⟨Or.inl hD, hkey⟩
      rintro ⟨hD | rfl, hkey⟩
      · exact Or.inr ⟨hD, hkey⟩
      · exact Or.inl rfl
    rw [if_neg hi, h.mem]
    refine and_congr_left (fun hkey => ?_)
    refine ⟨Or.inl, fun hor => hor.resolve_right ?_⟩
    rintro rfl
    exact hi hkey.symm
  rw [hlist i]
  split
  · exact List.nodup_cons.mpr ⟨fun hin => hx ((h.mem i x).mp hin).1, h.nodup i⟩
  · exact h.nodup i

end Bucketed

end FreeBSDKern.Lib
