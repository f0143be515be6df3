import FreeBSDKern.Lib.Intervals

/-!
# Marked Intervals

A list of intervals, some of them marked, where those that are not are as large as
they can be: no two of them touch. Such a list is known from the numbers it covers
and from its marked intervals. So a table of what is taken and what is free that
merges free neighbours has no history: it is the same whatever the order in which
things were taken and given back.

## Main definitions

* `Joins`: Two neighbours that could be one.
* `Tidy`: Intervals one behind the other, none of which join.

## Theorems

* `Tidy.ext_of`: A tidy list is known from what it covers and what is marked.
* `Tidy.replace`: Neighbours may be replaced by others that cover the same.
-/

namespace FreeBSDKern.Lib

/-- An interval, and whether it is marked. -/
abbrev Marked := (Nat × Nat) × Bool

/-- Two neighbours without a mark that touch. -/
def Joins (a b : Marked) : Prop := a.2 = false ∧ b.2 = false ∧ a.1.2 + 1 = b.1.1

/-- Intervals one behind the other, none of which join. -/
structure Tidy (l : List Marked) : Prop where
  ranges : Ranges (l.map Prod.fst)
  chain : l.IsChain (fun a b => ¬Joins a b)

variable {l l' : List Marked} {x y : Marked}

section

variable (h : Tidy (x :: l))
include h

theorem Tidy.cons : x.1.1 ≤ x.1.2 ∧ (∀ z ∈ l, x.1.2 < z.1.1) ∧ Tidy l := by
  have hranges := h.ranges
  rw [List.map_cons, ranges_cons] at hranges
  rcases hranges with ⟨hself, hbehind, htail⟩
  exact ⟨hself, fun z hz => hbehind _ (List.mem_map_of_mem hz), htail, h.chain.tail⟩

-- What the tail covers is behind the first interval.
theorem Tidy.mem_tail {n : Nat} : n ∈ extent (l.map Prod.fst) ↔
    n ∈ extent ((x :: l).map Prod.fst) ∧ x.1.2 < n := by
  rcases h.cons with ⟨-, hbehind, -⟩
  rw [List.map_cons, mem_extent_cons]
  constructor
  · intro hn
    refine ⟨Or.inr hn, ?_⟩
    rcases hn with ⟨r, hr, hle, -⟩
    rcases List.mem_map.mp hr with ⟨z, hz, rfl⟩
    exact lt_of_lt_of_le (hbehind z hz) hle
  rintro ⟨hn | hn, hlt⟩
  · omega
  · exact hn

theorem Tidy.start_le {n : Nat} (hn : n ∈ extent ((x :: l).map Prod.fst)) :
    x.1.1 ≤ n := by
  have hself := h.cons.1
  by_cases hlt : x.1.2 < n
  · omega
  rw [List.map_cons, mem_extent_cons] at hn
  rcases hn with hn | hn
  · exact hn.1
  · exact absurd (h.mem_tail.mp hn).2 hlt

theorem Tidy.start_mem : x.1.1 ∈ extent ((x :: l).map Prod.fst) := by
  rw [List.map_cons, mem_extent_cons]
  exact Or.inl ⟨le_rfl, h.cons.1⟩

-- No interval but the first contains a number of the first.
theorem Tidy.eq_first (hy : y ∈ x :: l) (hle : y.1.1 ≤ x.1.2) : y = x := by
  rcases List.mem_cons.mp hy with hy | hy
  · exact hy
  · exact absurd (h.cons.2.1 y hy) (Nat.not_lt.mpr hle)

/-- Of two first intervals without a mark the one does not end before the other, since what
    it touches would be marked, inside the other. -/
theorem Tidy.not_shorter (h' : Tidy (y :: l'))
    (hext : ∀ n, n ∈ extent ((y :: l').map Prod.fst) → n ∈ extent ((x :: l).map Prod.fst))
    (hmark : ∀ r, (r, true) ∈ x :: l → (r, true) ∈ y :: l') (hstart : x.1.1 = y.1.1)
    (hx : x.2 = false) (hy : y.2 = false) : y.1.2 ≤ x.1.2 := by
  by_contra hlt
  rw [not_le] at hlt
  have hself := h.cons.1
  have hnext : x.1.2 + 1 ∈ extent (l.map Prod.fst) := by
    refine h.mem_tail.mpr ⟨hext _ ?_, Nat.lt_succ_self _⟩
    rw [List.map_cons, mem_extent_cons]
    exact Or.inl ⟨by omega, hlt⟩
  rcases l with _ | ⟨z, rest⟩
  · rw [List.map_nil, extent_nil] at hnext
    exact hnext
  have hbehind := h.cons.2.1 z List.mem_cons_self
  have htouch : z.1.1 ≤ x.1.2 + 1 := h.cons.2.2.start_le hnext
  rcases z with ⟨r, mark⟩
  cases mark with
  | false =>
    exact (List.isChain_cons_cons.mp h.chain).1 ⟨hx, rfl, le_antisymm hbehind htouch⟩
  | true =>
    have hin := hmark r (List.mem_cons_of_mem x List.mem_cons_self)
    have heq : (r, true) = y := h'.eq_first hin (le_trans htouch hlt)
    rw [← heq] at hy
    exact absurd hy.symm Bool.false_ne_true

end

theorem Tidy.ext_of : ∀ {l l' : List Marked}, Tidy l → Tidy l' →
    extent (l.map Prod.fst) = extent (l'.map Prod.fst) →
    (∀ r, (r, true) ∈ l ↔ (r, true) ∈ l') → l = l' := by
  intro l
  induction l with
  | nil =>
    intro l' _ h' hext _
    cases l' with
    | nil => rfl
    | cons y l' =>
      have hin := h'.start_mem
      rw [← hext, List.map_nil, extent_nil] at hin
      exact absurd hin (Set.notMem_empty _)
  | cons x l ih =>
    intro l' h h' hext hmark
    cases l' with
    | nil =>
      have hin := h.start_mem
      rw [hext, List.map_nil, extent_nil] at hin
      exact absurd hin (Set.notMem_empty _)
    | cons y l' =>
      have hxin := h.start_mem
      have hyin := h'.start_mem
      rw [hext] at hxin
      rw [← hext] at hyin
      have hstart : x.1.1 = y.1.1 := le_antisymm (h.start_le hyin) (h'.start_le hxin)
      have hself := h.cons.1
      have hself' := h'.cons.1
      have hfirst : x = y := by
        rcases x with ⟨r, mark⟩
        rcases y with ⟨r', mark'⟩
        dsimp only at hstart hself hself'
        cases mark with
        | true =>
          exact h'.eq_first ((hmark r).mp List.mem_cons_self) (by dsimp only; omega)
        | false =>
          cases mark' with
          | true =>
            exact (h.eq_first ((hmark r').mpr List.mem_cons_self)
              (by dsimp only; omega)).symm
          | false =>
            have hle := h.not_shorter h' (fun n hn => hext ▸ hn) (fun r => (hmark r).mp)
              hstart rfl rfl
            have hge := h'.not_shorter h (fun n hn => hext ▸ hn) (fun r => (hmark r).mpr)
              hstart.symm rfl rfl
            rw [Prod.ext hstart (le_antisymm hge hle)]
      subst hfirst
      have hnotin : ∀ {k : List Marked}, Tidy (x :: k) → x ∉ k := by
        intro k hk hin
        have := hk.cons.2.1 x hin
        omega
      refine congrArg (x :: ·) (ih h.cons.2.2 h'.cons.2.2 ?_ (fun r => ?_))
      · ext n
        rw [h.mem_tail, h'.mem_tail, hext]
      have hiff := hmark r
      rw [List.mem_cons, List.mem_cons] at hiff
      constructor
      · intro hr
        exact (hiff.mp (Or.inr hr)).resolve_left (fun heq => hnotin h (heq ▸ hr))
      · intro hr
        exact (hiff.mpr (Or.inr hr)).resolve_left (fun heq => hnotin h' (heq ▸ hr))

theorem Tidy.replace {pre mid new post : List Marked} (h : Tidy (pre ++ mid ++ post))
    (hnew : Tidy new) (hne : new ≠ []) (hcov : extent (new.map Prod.fst) = extent (mid.map Prod.fst))
    (hleft : ∀ a ∈ pre.getLast?, ∀ b ∈ new.head?, ¬Joins a b)
    (hright : ∀ a ∈ new.getLast?, ∀ b ∈ post.head?, ¬Joins a b) : Tidy (pre ++ new ++ post) := by
  have hranges := h.ranges
  rw [List.map_append, List.map_append] at hranges
  refine ⟨?_, ?_⟩
  · rw [List.map_append, List.map_append]
    exact (hranges.replace hnew.ranges hcov).1
  refine (h.chain.left_of_append.left_of_append.append hnew.chain hleft).append
    h.chain.right_of_append (fun a ha => hright a ?_)
  rwa [List.getLast?_append_of_ne_nil _ hne] at ha

end FreeBSDKern.Lib
