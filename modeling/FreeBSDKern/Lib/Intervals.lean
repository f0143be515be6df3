import Mathlib

/-!
# Lists of Closed Intervals

A list of closed intervals of natural numbers that lie one behind the other, not
necessarily side by side, and the set of numbers it covers.

The operations on such a list change a few neighbours. `Ranges.replace` is the
one rule for all of them: neighbours may be replaced by any list in order that
covers the same numbers, and by one that covers more where the new numbers are
between the intervals before and behind.

## Main definitions

* `Ranges`: The intervals are not empty and in order.
* `extent`: The numbers of a list of intervals.

## Theorems

* `Ranges.replace_of`: Neighbours replaced by a list that covers new numbers too.
* `Ranges.replace`: Neighbours replaced by a list that covers the same numbers.
-/

namespace FreeBSDKern.Lib

/-- Intervals that are not empty, one behind the other. -/
structure Ranges (l : List (Nat × Nat)) : Prop where
  nonempty : ∀ r ∈ l, r.1 ≤ r.2
  order : l.Pairwise (fun a b => a.2 < b.1)

/-- The numbers in some interval of the list. -/
def extent (l : List (Nat × Nat)) : Set Nat := { x | ∃ r ∈ l, r.1 ≤ x ∧ x ≤ r.2 }

variable {l : List (Nat × Nat)} {x : Nat} {r : Nat × Nat}

theorem mem_extent : x ∈ extent l ↔ ∃ r ∈ l, r.1 ≤ x ∧ x ≤ r.2 := Iff.rfl

@[simp] theorem extent_nil : extent [] = ∅ := by
  ext x
  simp only [mem_extent, List.not_mem_nil, false_and, exists_false, Set.mem_empty_iff_false]

@[simp] theorem extent_append (a b : List (Nat × Nat)) : extent (a ++ b) = extent a ∪ extent b := by
  ext x
  simp only [mem_extent, List.mem_append, Set.mem_union]
  constructor
  · rintro ⟨r, hr | hr, hx⟩
    · exact .inl ⟨r, hr, hx⟩
    · exact .inr ⟨r, hr, hx⟩
  rintro (⟨r, hr, hx⟩ | ⟨r, hr, hx⟩)
  · exact ⟨r, .inl hr, hx⟩
  · exact ⟨r, .inr hr, hx⟩

theorem mem_extent_singleton : x ∈ extent [r] ↔ r.1 ≤ x ∧ x ≤ r.2 := by
  simp only [mem_extent, List.mem_singleton, exists_eq_left]

@[simp] theorem mem_extent_cons : x ∈ extent (r :: l) ↔ (r.1 ≤ x ∧ x ≤ r.2) ∨ x ∈ extent l := by
  rw [← List.singleton_append, extent_append, Set.mem_union, mem_extent_singleton]

@[simp] theorem ranges_nil : Ranges [] := ⟨fun _ h => absurd h List.not_mem_nil, List.Pairwise.nil⟩

@[simp] theorem ranges_cons : Ranges (r :: l) ↔ r.1 ≤ r.2 ∧ (∀ s ∈ l, r.2 < s.1) ∧ Ranges l := by
  constructor
  · intro h
    exact ⟨h.nonempty r List.mem_cons_self, (List.pairwise_cons.mp h.order).1,
      fun s hs => h.nonempty s (List.mem_cons_of_mem r hs), (List.pairwise_cons.mp h.order).2⟩
  intro h
  refine ⟨fun s hs => ?_, List.pairwise_cons.mpr ⟨h.2.1, h.2.2.order⟩⟩
  rcases List.mem_cons.mp hs with rfl | hs
  · exact h.1
  · exact h.2.2.nonempty s hs

theorem Ranges.append {a b : List (Nat × Nat)} : Ranges (a ++ b) ↔
    Ranges a ∧ Ranges b ∧ ∀ r ∈ a, ∀ s ∈ b, r.2 < s.1 := by
  constructor
  · intro h
    have ho := List.pairwise_append.mp h.order
    exact ⟨⟨fun r hr => h.nonempty r (List.mem_append_left b hr), ho.1⟩,
      ⟨fun r hr => h.nonempty r (List.mem_append_right a hr), ho.2.1⟩, ho.2.2⟩
  rintro ⟨ha, hb, hlt⟩
  refine ⟨fun r hr => ?_, List.pairwise_append.mpr ⟨ha.order, hb.order, hlt⟩⟩
  rcases List.mem_append.mp hr with hr | hr
  · exact ha.nonempty r hr
  · exact hb.nonempty r hr

/-- Neighbours may be replaced by intervals that cover what they did and more, as
    long as the new numbers lie between the others. -/
theorem Ranges.replace_of {pre mid mid' post : List (Nat × Nat)} {X : Set Nat}
    (h : Ranges (pre ++ mid ++ post)) (hmid : Ranges mid')
    (hcov : extent mid' = extent mid ∪ X) (hpre : ∀ r ∈ pre, ∀ x ∈ X, r.2 < x)
    (hpost : ∀ r ∈ post, ∀ x ∈ X, x < r.1) : Ranges (pre ++ mid' ++ post) ∧
      extent (pre ++ mid' ++ post) = extent (pre ++ mid ++ post) ∪ X := by
  rcases Ranges.append.mp h with ⟨hleft, hright, hlt⟩
  rcases Ranges.append.mp hleft with ⟨hfront, -, hfrontlt⟩
  have hin : ∀ s ∈ mid', s.1 ∈ extent mid ∪ X ∧ s.2 ∈ extent mid ∪ X := by
    intro s hs
    have hne := hmid.nonempty s hs
    rw [← hcov]
    exact ⟨⟨s, hs, le_rfl, hne⟩, ⟨s, hs, hne, le_rfl⟩⟩
  constructor
  · refine Ranges.append.mpr ⟨Ranges.append.mpr ⟨hfront, hmid, ?_⟩, hright, ?_⟩
    · intro r hr s hs
      rcases (hin s hs).1 with ⟨m, hm, hle, -⟩ | hX
      · exact lt_of_lt_of_le (hfrontlt r hr m hm) hle
      · exact hpre r hr _ hX
    intro r hr s hs
    rcases List.mem_append.mp hr with hr | hr
    · exact hlt r (List.mem_append_left mid hr) s hs
    rcases (hin r hr).2 with ⟨m, hm, -, hle⟩ | hX
    · exact lt_of_le_of_lt hle (hlt m (List.mem_append_right pre hm) s hs)
    · exact hpost s hs _ hX
  ext x
  simp only [extent_append, hcov, Set.mem_union]
  constructor
  · rintro ((hx | hx | hx) | hx)
    · exact .inl (.inl (.inl hx))
    · exact .inl (.inl (.inr hx))
    · exact .inr hx
    · exact .inl (.inr hx)
  rintro (((hx | hx) | hx) | hx)
  · exact .inl (.inl hx)
  · exact .inl (.inr (.inl hx))
  · exact .inr hx
  · exact .inl (.inr (.inr hx))

theorem Ranges.replace {pre mid mid' post : List (Nat × Nat)} (h : Ranges (pre ++ mid ++ post))
    (hmid : Ranges mid') (hcov : extent mid' = extent mid) :
    Ranges (pre ++ mid' ++ post) ∧ extent (pre ++ mid' ++ post) = extent (pre ++ mid ++ post) := by
  have hempty : extent mid' = extent mid ∪ ∅ := by rw [hcov, Set.union_empty]
  have hnew := h.replace_of hmid hempty (fun _ _ x hx => absurd hx (Set.notMem_empty x))
    (fun _ _ x hx => absurd hx (Set.notMem_empty x))
  rwa [Set.union_empty] at hnew

end FreeBSDKern.Lib
