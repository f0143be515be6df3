import FreeBSDKern.Lib.Buckets

/-!
# Singly Linked Cells

Cells that refer to each other by `next`. A reference is a number, a pointer or
whatever the program uses; `ref` is the reference to a cell, and everything that is
not one can end a list. `Linked` says that following the references from `p` visits
the cells of a list and arrives at `e`, so that the links of two lists compose.

An update of `next` at one cell leaves every list alone that the cell is not on.
What a program does to its lists is then pushing at the front, appending at the
end, and unlinking, and when the cells are divided among several lists
(`Bucketed`), `Bucketed.transfer` keeps the books.

## Main definitions

* `Linked`: The cells met from one reference to another.

## Theorems

* `linked_range'`: Cells that each refer to the next number.
* `Linked.push`, `Linked.snoc`, `Linked.unlink`: The elementary changes.
* `Bucketed.transfer`: Cells of one list go over to another.
-/

namespace FreeBSDKern.Lib

variable {α ρ : Type*}

/-- From reference `p` on, the cells of the list are met, and then `e`. -/
def Linked (ref : α → ρ) (next : α → ρ) : ρ → List α → ρ → Prop
  | p, [], e => p = e
  | p, a :: l, e => p = ref a ∧ Linked ref next (next a) l e

variable {ref next next' : α → ρ} {p e : ρ} {l : List α}

@[simp] theorem linked_nil : Linked ref next p [] e ↔ p = e := Iff.rfl

theorem linked_cons {a : α} :
    Linked ref next p (a :: l) e ↔ p = ref a ∧ Linked ref next (next a) l e := Iff.rfl

/-- Only the links of the cells on the list matter. -/
theorem Linked.congr (h : Linked ref next p l e) (heq : ∀ a ∈ l, next' a = next a) :
    Linked ref next' p l e := by
  induction l generalizing p with
  | nil => exact h
  | cons a l ih =>
    refine ⟨h.1, ?_⟩
    rw [heq a List.mem_cons_self]
    exact ih h.2 (fun b hb => heq b (List.mem_cons_of_mem a hb))

theorem linked_append {l₁ l₂ : List α} : Linked ref next p (l₁ ++ l₂) e ↔
      ∃ m, Linked ref next p l₁ m ∧ Linked ref next m l₂ e := by
  induction l₁ generalizing p with
  | nil => simp
  | cons a l₁ ih =>
    rw [List.cons_append, linked_cons, ih]
    constructor
    · rintro ⟨hp, m, h₁, h₂⟩
      exact ⟨m, ⟨hp, h₁⟩, h₂⟩
    · rintro ⟨m, ⟨hp, h₁⟩, h₂⟩
      exact ⟨hp, m, h₁, h₂⟩

/-- Where a list that begins with a cell begins. -/
theorem Linked.head (h : Linked ref next p l e) : p = (l.head?.map ref).getD e := by
  cases l with
  | nil => exact h
  | cons a l => exact h.1

theorem Linked.eq_nil (h : Linked ref next p l e) (he : ∀ a, ref a ≠ e) (hp : p = e) : l = [] := by
  cases l with
  | nil => rfl
  | cons a l => exact absurd (h.1.symm.trans hp) (he a)

/-- A chain of consecutive cells. -/
theorem linked_range' (ref next : Nat → ρ) (e : ρ) (n : Nat) : ∀ i,
    (∀ k, i ≤ k → k < i + n → next k = if k + 1 < i + n then ref (k + 1) else e) →
    Linked ref next (if 0 < n then ref i else e) (List.range' i n) e := by
  induction n with
  | zero =>
    intro i _
    rfl
  | succ n ih =>
    intro i hnext
    refine ⟨rfl, ?_⟩
    have hstart : next i = if 0 < n then ref (i + 1) else e := by
      rw [hnext i le_rfl (by omega)]
      by_cases hn : 0 < n
      · rw [if_pos hn, if_pos (by omega)]
      · rw [if_neg hn, if_neg (by omega)]
    rw [hstart]
    refine ih (i + 1) (fun k hlo hhi => ?_)
    rw [hnext k (by omega) (by omega), show i + 1 + n = i + (n + 1) by omega]

variable [DecidableEq α]

theorem Linked.update (h : Linked ref next p l e) {a : α} (ha : a ∉ l) (x : ρ) :
    Linked ref (Function.update next a x) p l e := by
  refine h.congr (fun b hb => Function.update_of_ne ?_ x next)
  intro heq
  exact ha (heq ▸ hb)

/-- A cell in front. -/
theorem Linked.push (h : Linked ref next p l e) {a : α} (ha : a ∉ l) :
    Linked ref (Function.update next a p) (ref a) (a :: l) e := by
  refine ⟨rfl, ?_⟩
  rw [Function.update_self]
  exact h.update ha p

/-- A cell behind the last one, which ends the list from now on. -/
theorem Linked.snoc {z a : α} (h : Linked ref next p (l ++ [z]) e) (hz : z ∉ l)
    (ha : a ∉ l ++ [z]) :
    Linked ref (Function.update (Function.update next z (ref a)) a e) p (l ++ [z] ++ [a]) e := by
  rcases linked_append.mp h with ⟨m, hl, hm, -⟩
  rw [List.mem_append, not_or, List.mem_singleton] at ha
  rw [linked_append]
  refine ⟨ref a, linked_append.mpr ⟨m, (hl.update hz _).update ha.1 _, hm, ?_⟩, rfl, ?_⟩
  · rw [Function.update_of_ne (fun he => ha.2 he.symm), Function.update_self]
    rfl
  · rw [Function.update_self]
    rfl

/-- The cell after `z` is taken out of the list. -/
theorem Linked.unlink {z a : α} {post : List α} (h : Linked ref next p (l ++ z :: a :: post) e)
    (hl : z ∉ l) (hpost : z ∉ post) :
    Linked ref (Function.update next z (next a)) p (l ++ z :: post) e := by
  rcases linked_append.mp h with ⟨m, hpre, hm, -, hrest⟩
  refine linked_append.mpr ⟨m, hpre.update hl _, hm, ?_⟩
  rw [Function.update_self]
  exact hrest.update hpost _

/-- Cells of one bucket go over to another, wherever they are put there. -/
theorem Bucketed.transfer {ι : Type*} {T T' : ι → List α} {D : α → Prop}
    {key : α → ι} (h : Bucketed T D key) {i j : ι} (hij : i ≠ j) (moved rest : List α)
    (hi : (T i).Perm (moved ++ rest)) (hi' : (T' i).Perm rest)
    (hj' : (T' j).Perm (moved ++ T j)) (hother : ∀ k, k ≠ i → k ≠ j → T' k = T k) :
    Bucketed T' D (fun t => if t ∈ moved then j else key t) := by
  have hmoved : ∀ t ∈ moved, D t ∧ key t = i := fun t ht =>
    (h.mem i t).mp (hi.mem_iff.mpr (List.mem_append_left rest ht))
  have hnodup := hi.nodup_iff.mp (h.nodup i)
  rw [List.nodup_append] at hnodup
  rcases hnodup with ⟨hnm, hnr, happart⟩
  refine ⟨fun k t => ?_, fun k => ?_⟩
  · by_cases ht : t ∈ moved
    · rw [if_pos ht]
      by_cases hkj : k = j
      · subst hkj
        rw [hj'.mem_iff, List.mem_append]
        exact iff_of_true (.inl ht) ⟨(hmoved t ht).1, rfl⟩
      refine iff_of_false (fun hin => ?_) (fun hk => hkj hk.2.symm)
      by_cases hki : k = i
      · subst hki
        exact happart t ht t (hi'.mem_iff.mp hin) rfl
      · rw [hother k hki hkj, h.mem] at hin
        exact hki (hin.2.symm.trans (hmoved t ht).2)
    rw [if_neg ht]
    by_cases hkj : k = j
    · subst hkj
      rw [hj'.mem_iff, List.mem_append, or_iff_right ht]
      exact h.mem k t
    by_cases hki : k = i
    · subst hki
      rw [hi'.mem_iff, ← h.mem, hi.mem_iff, List.mem_append, or_iff_right ht]
    · rw [hother k hki hkj]
      exact h.mem k t
  by_cases hkj : k = j
  · subst hkj
    rw [hj'.nodup_iff, List.nodup_append]
    refine ⟨hnm, h.nodup k, fun a ha b hb hab => hij ?_⟩
    subst hab
    exact ((hmoved a ha).2.symm).trans ((h.mem k a).mp hb).2
  by_cases hki : k = i
  · subst hki
    exact hi'.nodup_iff.mpr hnr
  · rw [hother k hki hkj]
    exact h.nodup k

end FreeBSDKern.Lib
