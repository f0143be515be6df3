import Mathlib

/-!
# Tail Queues

A queue of the `TAILQ` kind is a list without duplicates. An element is found by
its identity, so the operations take the element and not a position: its
neighbours, and the insertion behind it. Each lemma says what an operation does
at the place where the list is split.

## Main definitions

* `next?`, `prev?`: The neighbours of an element.
* `insertAfter`, `insertBefore`: Insertion behind and before an element.

## Theorems

* `insert_before`: The way to insert before an element.
* `next?_getElem`, `prev?_getElem`, `insertAfter_getElem`: The operations by places.
* `next?_insert`: An insertion changes one successor.
-/

namespace FreeBSDKern.Lib

variable {α : Type*} [DecidableEq α]

/-- The element behind another. -/
def next? : List α → α → Option α
  | [], _ => none
  | x :: xs, a => if x = a then xs.head? else next? xs a

/-- The element before another. -/
def prev? : List α → α → Option α
  | [], _ => none
  | [_], _ => none
  | x :: y :: xs, a => if y = a then some x else prev? (y :: xs) a

/-- Insert an element behind another. -/
def insertAfter : List α → α → α → List α
  | [], _, _ => []
  | x :: xs, p, a => if x = p then x :: a :: xs else x :: insertAfter xs p a

/-- Insert an element before another. -/
def insertBefore : List α → α → α → List α
  | [], _, _ => []
  | x :: xs, p, a => if x = p then a :: x :: xs else x :: insertBefore xs p a

omit [DecidableEq α] in
variable {pre post : List α} {a : α}

/-- An element is not among those before it. -/
theorem notMem_front (h : (pre ++ a :: post).Nodup) : a ∉ pre :=
  fun hin => (List.nodup_append.mp h).2.2 a hin a List.mem_cons_self rfl

theorem next?_split (a : α) (pre post : List α) (h : a ∉ pre) :
    next? (pre ++ a :: post) a = post.head? := by
  induction pre with
  | nil => exact if_pos rfl
  | cons x xs ih =>
    rw [List.mem_cons, not_or] at h
    rw [List.cons_append, next?, if_neg (Ne.symm h.1), ih h.2]

theorem prev?_split (a p : α) (pre post : List α) (h : a ∉ pre) (hp : a ≠ p) :
    prev? (pre ++ p :: a :: post) a = some p := by
  induction pre with
  | nil => exact if_pos rfl
  | cons x xs ih =>
    rw [List.mem_cons, not_or] at h
    cases xs with
    | nil =>
      rw [List.cons_append, List.nil_append, prev?, if_neg (Ne.symm hp), prev?, if_pos rfl]
    | cons y ys =>
      have hy : y ≠ a := fun heq => h.2 (heq ▸ List.mem_cons_self)
      rw [List.cons_append, List.cons_append, prev?, if_neg hy]
      exact ih h.2

theorem insertAfter_split (p a : α) (pre post : List α) (h : p ∉ pre) :
    insertAfter (pre ++ p :: post) p a = pre ++ p :: a :: post := by
  induction pre with
  | nil => exact if_pos rfl
  | cons x xs ih =>
    rw [List.mem_cons, not_or] at h
    rw [List.cons_append, insertAfter, if_neg (Ne.symm h.1), ih h.2]
    rfl

theorem insertBefore_split (p a : α) (pre post : List α) (h : p ∉ pre) :
    insertBefore (pre ++ p :: post) p a = pre ++ a :: p :: post := by
  induction pre with
  | nil => exact if_pos rfl
  | cons x xs ih =>
    rw [List.mem_cons, not_or] at h
    rw [List.cons_append, insertBefore, if_neg (Ne.symm h.1), ih h.2]
    rfl

/-- Insertion behind the element before another is insertion before it. -/
theorem insert_before {pre post : List α} {a : α} (hne : pre ≠ []) (h : (pre ++ a :: post).Nodup) :
    ∃ p, pre.getLast? = some p ∧ prev? (pre ++ a :: post) a = some p ∧
      ∀ x, insertAfter (pre ++ a :: post) p x = pre ++ x :: a :: post := by
  rcases List.eq_nil_or_concat pre with rfl | ⟨ys, p, rfl⟩
  · exact absurd rfl hne
  rw [List.concat_eq_append] at h ⊢
  rw [List.append_assoc] at h
  have hmem := List.nodup_append.mp h
  have hp : p ∉ ys := fun hin => hmem.2.2 p hin p List.mem_cons_self rfl
  have ha : a ∉ ys := fun hin =>
    hmem.2.2 a hin a (List.mem_cons_of_mem _ List.mem_cons_self) rfl
  have hap : a ≠ p := by
    rintro rfl
    exact (List.nodup_cons.mp hmem.2.1).1 List.mem_cons_self
  refine ⟨p, List.getLast?_concat, ?_, fun x => ?_⟩
  · rw [List.append_assoc]
    exact prev?_split a p ys post ha hap
  · rw [List.append_assoc, List.append_assoc]
    exact insertAfter_split p x ys (a :: post) hp

omit [DecidableEq α] in
/-- A list at one of its places. -/
theorem split_at {l : List α} {i : Nat} (h : l[i]? = some a) :
    l = l.take i ++ a :: l.drop (i + 1) := by
  obtain ⟨hi, rfl⟩ := List.getElem?_eq_some_iff.mp h
  rw [List.getElem_cons_drop hi, List.take_append_drop]

omit [DecidableEq α] in
theorem notMem_take {l : List α} {i : Nat} {a : α} (hl : l.Nodup) (h : l[i]? = some a) :
    a ∉ l.take i := by
  intro hin
  rw [split_at h] at hl
  exact (List.nodup_append.mp hl).2.2 a hin a List.mem_cons_self rfl

/-- The neighbour behind an element, by places. -/
theorem next?_getElem {l : List α} {i : Nat} {a : α} (hl : l.Nodup) (h : l[i]? = some a) :
    next? l a = l[i + 1]? := by
  conv_lhs => rw [split_at h]
  rw [next?_split _ _ _ (notMem_take hl h), List.head?_drop]

theorem prev?_of_notMem_tail {x : α} : ∀ {xs : List α}, a ∉ xs → prev? (x :: xs) a = none
  | [], _ => rfl
  | y :: ys, h => by
    rw [List.mem_cons, not_or] at h
    rw [prev?, if_neg (Ne.symm h.1)]
    exact prev?_of_notMem_tail h.2

/-- The first element has none before it. -/
theorem prev?_head {l : List α} {a : α} (hl : l.Nodup) (h : l[0]? = some a) : prev? l a = none := by
  cases l with
  | nil => rfl
  | cons x xs =>
    rw [List.getElem?_cons_zero, Option.some.injEq] at h
    rw [h] at hl ⊢
    exact prev?_of_notMem_tail (List.nodup_cons.mp hl).1

/-- The neighbour before an element, at the place where the list is split. -/
theorem prev?_append {pre post : List α} {a : α} (h : (pre ++ a :: post).Nodup) :
    prev? (pre ++ a :: post) a = pre.getLast? := by
  cases hpre : pre.getLast? with
  | none =>
    rw [List.getLast?_eq_none_iff] at hpre
    rw [hpre] at h ⊢
    exact prev?_head h rfl
  | some p =>
    rcases List.getLast?_eq_some_iff.mp hpre with ⟨ys, rfl⟩
    rw [List.append_assoc, List.singleton_append] at h ⊢
    have hmem := List.nodup_append.mp h
    refine prev?_split a p ys post ?_ ?_
    · intro hin
      exact hmem.2.2 a hin a (List.mem_cons_of_mem p List.mem_cons_self) rfl
    · rintro rfl
      exact (List.nodup_cons.mp hmem.2.1).1 List.mem_cons_self

/-- The neighbour before an element, by places. -/
theorem prev?_getElem {l : List α} {i : Nat} {a : α} (hl : l.Nodup) (h : l[i + 1]? = some a) :
    prev? l a = l[i]? := by
  have hlt : i < l.length := by
    have := (List.getElem?_eq_some_iff.mp h).1
    omega
  have hi : l[i]? = some l[i] := List.getElem?_eq_getElem hlt
  have hsplit : l = l.take i ++ l[i] :: a :: l.drop (i + 1 + 1) := by
    have h1 := split_at h
    rw [List.take_add_one, hi, Option.toList_some, List.append_assoc, List.singleton_append] at h1
    exact h1
  have hmem := notMem_take hl h
  rw [List.take_add_one, hi, Option.toList_some, List.mem_append, not_or,
    List.mem_singleton] at hmem
  conv_lhs => rw [hsplit]
  rw [prev?_split a l[i] _ _ hmem.1 hmem.2, hi]

/-- The insertion behind an element, by places. -/
theorem insertAfter_getElem {l : List α} {i : Nat} {a : α} (hl : l.Nodup) (h : l[i]? = some a)
    (x : α) : insertAfter l a x = l.take (i + 1) ++ x :: l.drop (i + 1) := by
  conv_lhs => rw [split_at h]
  rw [insertAfter_split _ _ _ _ (notMem_take hl h), List.take_add_one, h]
  simp only [Option.toList_some, List.append_assoc, List.cons_append, List.nil_append]

theorem erase_split (a : α) (pre post : List α) (h : a ∉ pre) :
    (pre ++ a :: post).erase a = pre ++ post := by
  rw [List.erase_append_right _ h, List.erase_cons_head]

/-- A successor is an element. -/
theorem mem_of_next? : ∀ {l : List α} {a b : α}, next? l a = some b → b ∈ l
  | [], _, _, h => nomatch h
  | x :: xs, a, b, h => by
    rw [next?] at h
    split at h
    case isTrue => exact List.mem_cons_of_mem x (List.mem_of_mem_head? h)
    case isFalse => exact List.mem_cons_of_mem x (mem_of_next? h)

/-- An insertion changes the successor of no element but the one before it. -/
theorem next?_insert {n j : α} (h : (pre ++ n :: post).Nodup) (hj : j ∈ pre ++ post)
    (hlast : pre.getLast? ≠ some j) : next? (pre ++ n :: post) j = next? (pre ++ post) j := by
  have hsub : (pre ++ post).Nodup :=
    h.sublist ((List.sublist_cons_self n post).append_left pre)
  rcases List.mem_append.mp hj with hj | hj
  · rcases List.append_of_mem hj with ⟨a, b, rfl⟩
    rw [List.append_assoc, List.cons_append] at h hsub ⊢
    rw [List.append_assoc, List.cons_append, next?_split _ _ _ (notMem_front h),
      next?_split _ _ _ (notMem_front hsub)]
    cases b with
    | nil => simp at hlast
    | cons c b => rfl
  rcases List.append_of_mem hj with ⟨a, b, rfl⟩
  have h' : ((pre ++ n :: a) ++ j :: b).Nodup := by simpa using h
  have hsub' : ((pre ++ a) ++ j :: b).Nodup := by simpa using hsub
  have h1 := next?_split j _ b (notMem_front h')
  have h2 := next?_split j _ b (notMem_front hsub')
  simpa using h1.trans h2.symm

/-- The successor of the last element before a place is the first one behind it. -/
theorem next?_last {p : α} (h : (pre ++ post).Nodup) (hp : pre.getLast? = some p) :
    next? (pre ++ post) p = post.head? := by
  rcases List.getLast?_eq_some_iff.mp hp with ⟨a, rfl⟩
  rw [List.append_assoc, List.singleton_append] at h ⊢
  exact next?_split _ _ _ (notMem_front h)

end FreeBSDKern.Lib
