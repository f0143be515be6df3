import Mathlib

/-!
# Top-Down Splay Trees With a Cached Maximum

A binary tree over an ordered sequence whose nodes cache the largest weight of
their subtree, and the top-down splay that restructures it in two passes.

Nothing here compares keys. A search is given by `side`, which says of every
element whether the position looked for lies before it, inside it or after it;
a sequence is `Sided` when the elements passed come first and the elements not
yet reached come last. With that, one theorem about the splay and one about the
plain search cover interval maps, search trees and anything else whose order a
probe can see.

The splay walks down once, moving what it passes to two spines that are kept
bottom-up, and then walks back up the spines, since a cached maximum can only be
recomputed from below. `spineLeft` and `spineRight` read a spine as the part of
the sequence it stands for, and every step of the walk leaves
`spineLeft ++ subtree ++ spineRight` as it was.

## Main definitions

* `SplayTree`: A binary tree with a cached maximum in every node.
* `MaxOk`: Every cached maximum is the maximum over its subtree.
* `splay`: The two-pass top-down splay.
* `locate`: The plain descent, and where it stops.
* `firstFit`: The descent guided by the cached maxima.

## Theorems

* `toList_splay`: Splaying preserves the sequence.
* `maxOk_splay`: Splaying re-establishes every cached maximum.
* `splay_splits`: The new root splits the sequence at the position.
* `locate_splits`: So does the element at which the plain descent stops.
* `firstFit_spec`: The guided descent finds the first heavy enough element.
-/

namespace FreeBSDKern.Lib

/-- A binary tree whose nodes cache the maximum of their subtree. -/
inductive SplayTree (α : Type) where
  | nil
  | node (l : SplayTree α) (a : α) (m : Nat) (r : SplayTree α)
  deriving Repr, DecidableEq

namespace SplayTree

variable {α : Type}

/-- The sequence a tree stands for. -/
def toList : SplayTree α → List α
  | nil => []
  | node l a _ r => l.toList ++ a :: r.toList

@[simp] theorem toList_nil : (nil : SplayTree α).toList = [] := rfl

@[simp] theorem toList_node (l : SplayTree α) (a : α) (m : Nat) (r : SplayTree α) :
    (node l a m r).toList = l.toList ++ a :: r.toList := rfl

/-- The cached maximum at the top, zero for an empty tree. -/
def top : SplayTree α → Nat
  | nil => 0
  | node _ _ m _ => m

@[simp] theorem top_nil : (nil : SplayTree α).top = 0 := rfl

@[simp] theorem top_node (l : SplayTree α) (a : α) (m : Nat) (r : SplayTree α) :
    (node l a m r).top = m := rfl

/-- Build a node, taking its maximum from its own weight and its children. -/
def setMax (w : α → Nat) (l : SplayTree α) (a : α) (r : SplayTree α) : SplayTree α :=
  node l a (max (w a) (max l.top r.top)) r

@[simp] theorem toList_setMax (w : α → Nat) (l : SplayTree α) (a : α) (r : SplayTree α) :
    (setMax w l a r).toList = l.toList ++ a :: r.toList := rfl

/-- The largest weight in a sequence. -/
def heaviest (w : α → Nat) (l : List α) : Nat :=
  l.foldr (fun a m => max (w a) m) 0

@[simp] theorem heaviest_nil (w : α → Nat) : heaviest w [] = 0 := rfl

@[simp] theorem heaviest_cons (w : α → Nat) (a : α) (l : List α) :
    heaviest w (a :: l) = max (w a) (heaviest w l) := rfl

theorem heaviest_append (w : α → Nat) (l₁ l₂ : List α) :
    heaviest w (l₁ ++ l₂) = max (heaviest w l₁) (heaviest w l₂) := by
  induction l₁ with
  | nil => simp
  | cons a l ih => simp [ih, max_assoc]

variable {w : α → Nat} {a : α} {t l r : SplayTree α} {m : Nat} {ll : List (SplayTree α × α)}
  {rl : List (α × SplayTree α)} {l₁ l₂ : List α}

theorem le_heaviest {l : List α} (h : a ∈ l) : w a ≤ heaviest w l := by
  induction l with
  | nil => cases h
  | cons b l ih =>
    rcases List.mem_cons.mp h with h | h
    · simp [h]
    · exact (ih h).trans (by simp)

theorem heaviest_congr {w' : α → Nat} {l : List α} (h : ∀ a ∈ l, w' a = w a) :
    heaviest w' l = heaviest w l := by
  induction l with
  | nil => rfl
  | cons b l ih =>
    rw [heaviest_cons, heaviest_cons, h b (by simp), ih fun a ha => h a (List.mem_cons_of_mem b ha)]

/-- Every cached maximum is the maximum over its subtree. -/
def MaxOk (w : α → Nat) : SplayTree α → Prop
  | nil => True
  | node l a m r => m = heaviest w (l.toList ++ a :: r.toList) ∧ l.MaxOk w ∧ r.MaxOk w

@[simp] theorem maxOk_nil (w : α → Nat) : (nil : SplayTree α).MaxOk w := trivial

theorem MaxOk.top_eq (h : t.MaxOk w) : t.top = heaviest w t.toList := by
  cases t with
  | nil => rfl
  | node l a m r => exact h.1

theorem MaxOk.left (h : (node l a m r).MaxOk w) : l.MaxOk w := h.2.1

theorem MaxOk.right (h : (node l a m r).MaxOk w) : r.MaxOk w := h.2.2

theorem maxOk_setMax (a : α) (hl : l.MaxOk w) (hr : r.MaxOk w) : (setMax w l a r).MaxOk w := by
  refine ⟨?_, hl, hr⟩
  rw [heaviest_append, heaviest_cons, hl.top_eq, hr.top_eq, max_left_comm]

/-- The cached maxima only depend on the weights of the elements present. -/
theorem MaxOk.congr {w' : α → Nat} (h : t.MaxOk w) (heq : ∀ a ∈ t.toList, w' a = w a) :
    t.MaxOk w' := by
  induction t with
  | nil => exact maxOk_nil w'
  | node l a m r ihl ihr =>
    simp only [toList_node, List.mem_append, List.mem_cons] at heq
    refine ⟨?_, ihl h.left fun b hb => heq b (.inl hb),
      ihr h.right fun b hb => heq b (.inr (.inr hb))⟩
    rw [h.1]
    exact (heaviest_congr fun b hb => heq b (by simpa using hb)).symm

/-! ## Splaying -/

section splay

variable (w : α → Nat) (side : α → Ordering)

/-- Whether a subtree is the null pointer. -/
def isNil : SplayTree α → Bool
  | nil => true
  | node _ _ _ _ => false

/-- Pass One: go down to the position, rotating whenever two steps go the same
    way, and put what is passed on the two spines, which are kept bottom-up. -/
def passOne : SplayTree α → List (SplayTree α × α) → List (α × SplayTree α) →
    List (SplayTree α × α) × SplayTree α × List (α × SplayTree α)
  | nil, llist, rlist => (llist, nil, rlist)
  | node l a m r, llist, rlist =>
    match side a with
    | .lt =>
      match l with
      | nil => (llist, node nil a m r, rlist)
      | node yl y ym yr =>
        if side y = .lt ∧ yl.isNil = false then
          passOne yl llist ((y, setMax w yr a r) :: rlist)
        else
          passOne (node yl y ym yr) llist ((a, r) :: rlist)
    | .gt =>
      match r with
      | nil => (llist, node l a m nil, rlist)
      | node yl y ym yr =>
        if side y = .gt ∧ yr.isNil = false then
          passOne yr ((setMax w l a yl, y) :: llist) rlist
        else
          passOne (node yl y ym yr) ((l, a) :: llist) rlist
    | .eq => (llist, node l a m r, rlist)

/-- Pass Two, left side: flip the left spine back and recompute its maxima. -/
def hangLeft (llist : List (SplayTree α × α)) (ltree : SplayTree α) : SplayTree α :=
  llist.foldl (fun t p => setMax w p.1 p.2 t) ltree

/-- Pass Two, right side. -/
def hangRight (rlist : List (α × SplayTree α)) (rtree : SplayTree α) : SplayTree α :=
  rlist.foldl (fun t p => setMax w t p.1 p.2) rtree

/-- Pass Two and the final assembly. -/
def passTwo : List (SplayTree α × α) × SplayTree α × List (α × SplayTree α) → SplayTree α
  | (_, nil, _) => nil
  | (llist, node l a _ r, rlist) => setMax w (hangLeft w llist l) a (hangRight w rlist r)

/-- The two-pass top-down splay. -/
def splay (t : SplayTree α) : SplayTree α :=
  passTwo w (passOne w side t [] [])

/-- The part of the sequence a bottom-up left spine stands for. -/
def spineLeft : List (SplayTree α × α) → List α
  | [] => []
  | (l, a) :: ps => spineLeft ps ++ (l.toList ++ [a])

/-- The part of the sequence a bottom-up right spine stands for. -/
def spineRight : List (α × SplayTree α) → List α
  | [] => []
  | (a, r) :: ps => a :: (r.toList ++ spineRight ps)

@[simp] theorem spineLeft_nil : spineLeft ([] : List (SplayTree α × α)) = [] := rfl

@[simp] theorem spineLeft_cons (l : SplayTree α) (a : α) (ps : List (SplayTree α × α)) :
    spineLeft ((l, a) :: ps) = spineLeft ps ++ (l.toList ++ [a]) := rfl

@[simp] theorem spineRight_nil : spineRight ([] : List (α × SplayTree α)) = [] := rfl

@[simp] theorem spineRight_cons (a : α) (r : SplayTree α) (ps : List (α × SplayTree α)) :
    spineRight ((a, r) :: ps) = a :: (r.toList ++ spineRight ps) := rfl

/-- No step of the walk down changes the sequence the two spines and the
    subtree stand for together. -/
theorem passOne_toList (t : SplayTree α) (ll : List (SplayTree α × α)) (rl : List (α × SplayTree α)) :
    spineLeft (passOne w side t ll rl).1 ++ ((passOne w side t ll rl).2.1.toList
      ++ spineRight (passOne w side t ll rl).2.2)
      = spineLeft ll ++ (t.toList ++ spineRight rl) := by
  fun_induction passOne w side t ll rl <;> simp_all

theorem toList_hangLeft (ll : List (SplayTree α × α)) (t : SplayTree α) :
    (hangLeft w ll t).toList = spineLeft ll ++ t.toList := by
  induction ll generalizing t with
  | nil => rfl
  | cons p ll ih =>
    rcases p with ⟨l, a⟩
    rw [hangLeft, List.foldl_cons, ← hangLeft, ih]
    simp

theorem toList_hangRight (rl : List (α × SplayTree α)) (t : SplayTree α) :
    (hangRight w rl t).toList = t.toList ++ spineRight rl := by
  induction rl generalizing t with
  | nil => simp [hangRight]
  | cons p rl ih =>
    rcases p with ⟨a, r⟩
    rw [hangRight, List.foldl_cons, ← hangRight, ih]
    simp

theorem passOne_isNil (t : SplayTree α) (ll : List (SplayTree α × α)) (rl : List (α × SplayTree α)) :
    (passOne w side t ll rl).2.1.isNil = true ↔ t.isNil = true := by
  fun_induction passOne w side t ll rl <;> simp_all [isNil]

theorem passTwo_toList (ll : List (SplayTree α × α)) (t : SplayTree α) (rl : List (α × SplayTree α))
    (h : t.isNil = false) :
    (passTwo w (ll, t, rl)).toList = spineLeft ll ++ (t.toList ++ spineRight rl) := by
  cases t with
  | nil => cases h
  | node l a m r => simp [passTwo, toList_hangLeft, toList_hangRight]

@[simp] theorem toList_splay (t : SplayTree α) : (splay w side t).toList = t.toList := by
  cases t with
  | nil => rfl
  | node l a m r =>
    have hnil := passOne_isNil w side (node l a m r) [] []
    have hone := passOne_toList w side (node l a m r) [] []
    rw [splay, passTwo_toList w _ _ _ (by simpa [isNil] using hnil), hone]
    simp

/-- The maxima are right in every subtree hanging off the two spines. -/
def SpinesOk (ll : List (SplayTree α × α)) (rl : List (α × SplayTree α)) : Prop :=
  (∀ p ∈ ll, p.1.MaxOk w) ∧ ∀ p ∈ rl, p.2.MaxOk w

theorem passOne_maxOk (ht : t.MaxOk w) (hs : SpinesOk w ll rl) :
    (passOne w side t ll rl).2.1.MaxOk w ∧
      SpinesOk w (passOne w side t ll rl).1 (passOne w side t ll rl).2.2 := by
  fun_induction passOne w side t ll rl with
  | case1 ll rl => exact ⟨ht, hs⟩
  | case2 ll rl a m r hside => exact ⟨ht, hs⟩
  | case3 ll rl a m r hside yl y ym yr hy ih =>
    refine ih ht.left.left ⟨hs.1, List.forall_mem_cons.mpr ⟨?_, hs.2⟩⟩
    exact maxOk_setMax _ ht.left.right ht.right
  | case4 ll rl a m r hside yl y ym yr hy ih =>
    exact ih ht.left ⟨hs.1, List.forall_mem_cons.mpr ⟨ht.right, hs.2⟩⟩
  | case5 ll rl l a m hside => exact ⟨ht, hs⟩
  | case6 ll rl l a m hside yl y ym yr hy ih =>
    refine ih ht.right.right ⟨List.forall_mem_cons.mpr ⟨?_, hs.1⟩, hs.2⟩
    exact maxOk_setMax _ ht.left ht.right.left
  | case7 ll rl l a m hside yl y ym yr hy ih =>
    exact ih ht.right ⟨List.forall_mem_cons.mpr ⟨ht.left, hs.1⟩, hs.2⟩
  | case8 ll rl l a m r hside => exact ⟨ht, hs⟩

theorem maxOk_hangLeft (ht : t.MaxOk w) (hl : ∀ p ∈ ll, p.1.MaxOk w) :
    (hangLeft w ll t).MaxOk w := by
  induction ll generalizing t with
  | nil => exact ht
  | cons p ll ih =>
    have hp := List.forall_mem_cons.mp hl
    exact ih (maxOk_setMax p.2 hp.1 ht) hp.2

theorem maxOk_hangRight (ht : t.MaxOk w) (hr : ∀ p ∈ rl, p.2.MaxOk w) :
    (hangRight w rl t).MaxOk w := by
  induction rl generalizing t with
  | nil => exact ht
  | cons p rl ih =>
    have hp := List.forall_mem_cons.mp hr
    exact ih (maxOk_setMax p.1 ht hp.1) hp.2

theorem maxOk_splay (ht : t.MaxOk w) : (splay w side t).MaxOk w := by
  have hspines : SpinesOk w [] [] := ⟨List.forall_mem_nil _, List.forall_mem_nil _⟩
  have hone := passOne_maxOk w side ht hspines
  rw [splay]
  revert hone
  generalize passOne w side t [] [] = s
  intro hone
  rcases s with ⟨ll, t', rl⟩
  cases t' with
  | nil => exact maxOk_nil w
  | node l a m r =>
    exact maxOk_setMax a (maxOk_hangLeft w hone.1.left hone.2.1)
      (maxOk_hangRight w hone.1.right hone.2.2)

end splay

/-! ## Where a search ends -/

section sided

variable (w : α → Nat) (side : α → Ordering)

/-- The elements the position lies after come first, those it lies before come
    last, and at most one element contains it. -/
def Sided (l : List α) : Prop :=
  l.Pairwise fun a b => side a = .gt ∨ side b = .lt

/-- `before` has been passed and `after` has not been reached. -/
def Splits (before after : List α) : Prop :=
  (∀ b ∈ before, side b = .gt) ∧ ∀ b ∈ after, side b = .lt

variable {side}

theorem Sided.left (h : Sided side (l₁ ++ l₂)) : Sided side l₁ :=
  (List.pairwise_append.mp h).1

theorem Sided.right (h : Sided side (l₁ ++ l₂)) : Sided side l₂ :=
  (List.pairwise_append.mp h).2.1

/-- Everything before an element that has been reached has been passed. -/
theorem Sided.before (h : Sided side (l₁ ++ a :: l₂)) (ha : side a ≠ .lt) :
    ∀ b ∈ l₁, side b = .gt := by
  intro b hb
  have hba := (List.pairwise_append.mp h).2.2 b hb a (by simp)
  exact hba.resolve_right ha

/-- Nothing after an element that has not been passed has been reached. -/
theorem Sided.after (h : Sided side (l₁ ++ a :: l₂)) (ha : side a ≠ .gt) :
    ∀ b ∈ l₂, side b = .lt := by
  intro b hb
  have hab := (List.pairwise_cons.mp h.right).1 b hb
  exact hab.resolve_left ha

/-- A node still to be reached: it and what follows it can go on the right
    spine. -/
theorem Splits.push_right {l₃ l₄ : List α} (hs : Sided side (l₁ ++ (l₂ ++ a :: l₃ ++ l₄)))
    (hp : Splits side l₁ l₄) (ha : side a = .lt) : Splits side l₁ (a :: (l₃ ++ l₄)) := by
  refine ⟨hp.1, List.forall_mem_cons.mpr ⟨ha, ?_⟩⟩
  have hs' : Sided side ((l₁ ++ l₂) ++ a :: (l₃ ++ l₄)) := by simpa using hs
  exact hs'.after (by simp [ha])

/-- A node passed: it and what precedes it can go on the left spine. -/
theorem Splits.push_left {l₃ l₄ : List α} (hs : Sided side (l₁ ++ (l₂ ++ a :: l₃ ++ l₄)))
    (hp : Splits side l₁ l₄) (ha : side a = .gt) : Splits side (l₁ ++ (l₂ ++ [a])) l₄ := by
  have hs' : Sided side ((l₁ ++ l₂) ++ a :: (l₃ ++ l₄)) := by simpa using hs
  have hbefore := hs'.before (by simp [ha])
  refine ⟨fun b hb => ?_, hp.2⟩
  simp only [List.mem_append, List.mem_singleton] at hb hbefore
  rcases hb with hb | hb | hb
  · exact hbefore b (.inl hb)
  · exact hbefore b (.inr hb)
  · rw [hb, ha]

/-- The walk down only passes what lies on the far side of the position, so the
    node it reaches splits the sequence there. -/
theorem passOne_splits (hs : Sided side (spineLeft ll ++ (t.toList ++ spineRight rl)))
    (hp : Splits side (spineLeft ll) (spineRight rl))
    (hroot : (passOne w side t ll rl).2.1 = node l a m r) :
    Splits side (spineLeft (passOne w side t ll rl).1 ++ l.toList)
      (r.toList ++ spineRight (passOne w side t ll rl).2.2) := by
  fun_induction passOne w side t ll rl with
  | case1 ll rl => cases hroot
  | case2 ll rl b k r hside =>
    -- The position lies before the node and nothing is left of it.
    cases hroot
    have hr := (Splits.push_right hs hp hside).2
    exact ⟨by simpa using hp.1, fun b hb => hr b (List.mem_cons_of_mem _ hb)⟩
  | case3 b k r ll rl hside yl y ym yr hy ih =>
    have hs' : Sided side (spineLeft ll
        ++ (yl.toList ++ y :: (yr.toList ++ b :: r.toList) ++ spineRight rl)) := by
      simpa using hs
    refine ih (by simpa using hs) ?_ hroot
    simpa using Splits.push_right hs' hp hy.1
  | case4 b k r ll rl hside yl y ym yr hy ih =>
    refine ih (by simpa using hs) ?_ hroot
    exact Splits.push_right hs hp hside
  | case5 l b k ll rl hside =>
    cases hroot
    have hl := (Splits.push_left hs hp hside).1
    refine ⟨fun c hc => hl c ?_, by simpa using hp.2⟩
    simpa [or_assoc] using Or.inl hc
  | case6 l b k ll rl hside yl y ym yr hy ih =>
    have hs' : Sided side (spineLeft ll
        ++ ((l.toList ++ b :: yl.toList) ++ y :: yr.toList ++ spineRight rl)) := by
      simpa using hs
    refine ih (by simpa using hs) ?_ hroot
    simpa using Splits.push_left hs' hp hy.1
  | case7 l b k ll rl hside yl y ym yr hy ih =>
    refine ih (by simpa using hs) ?_ hroot
    exact Splits.push_left hs hp hside
  | case8 l b k r ll rl hside =>
    cases hroot
    have hs' : Sided side ((spineLeft ll ++ l.toList) ++ a :: (r.toList ++ spineRight rl)) := by
      simpa using hs
    exact ⟨hs'.before (by simp [hside]), hs'.after (by simp [hside])⟩

theorem splay_splits (hs : Sided side t.toList) (hroot : splay w side t = node l a m r) :
    Splits side l.toList r.toList := by
  have hone : ∀ l' a' m' r', (passOne w side t [] []).2.1 = node l' a' m' r' → _ :=
    fun l' a' m' r' => passOne_splits w (by simpa using hs) ⟨by simp, by simp⟩
  rw [splay] at hroot
  revert hone hroot
  generalize passOne w side t [] [] = s
  intro hroot hone
  rcases s with ⟨ll, t', rl⟩
  cases t' with
  | nil => cases hroot
  | node l' a' m' r' =>
    have hsplit := hone l' a' m' r' rfl
    simp only [passTwo, setMax, node.injEq] at hroot
    rcases hroot with ⟨hl, -, -, hr⟩
    rw [← hl, ← hr, toList_hangLeft, toList_hangRight]
    exact hsplit

/-- Splaying a tree that is not empty gives a root. -/
theorem splay_ne_nil (t : SplayTree α) (h : t ≠ nil) : splay w side t ≠ nil := by
  intro hnil
  have hlist := toList_splay w side t
  rw [hnil] at hlist
  cases t with
  | nil => exact h rfl
  | node l a m r => simp at hlist

/-- The plain descent: the element it stops at. -/
def locate (side : α → Ordering) : SplayTree α → Option α
  | nil => none
  | node l a _ r =>
    match side a with
    | .lt => if l.isNil then some a else locate side l
    | .gt => if r.isNil then some a else locate side r
    | .eq => some a

/-- The element at which the plain descent stops splits the sequence at the
    position looked for. -/
theorem locate_splits (hs : Sided side t.toList) (ha : locate side t = some a) :
    ∃ l₁ l₂, t.toList = l₁ ++ a :: l₂ ∧ Splits side l₁ l₂ := by
  induction t with
  | nil => cases ha
  | node l b m r ihl ihr =>
    rw [locate] at ha
    cases hside : side b with
    | lt =>
      have hr := hs.after (by simp [hside])
      simp only [hside] at ha
      cases l with
      | nil =>
        cases ha
        exact ⟨[], r.toList, rfl, by simp, hr⟩
      | node ll c k lr =>
        rcases ihl hs.left ha with ⟨l₁, l₂, hlist, hbefore, hafter⟩
        refine ⟨l₁, l₂ ++ b :: r.toList, by simp [hlist], hbefore, ?_⟩
        intro d hd
        rcases List.mem_append.mp hd with hd | hd
        · exact hafter d hd
        rcases List.mem_cons.mp hd with hd | hd
        · rw [hd, hside]
        · exact hr d hd
    | eq =>
      simp only [hside] at ha
      cases ha
      exact ⟨l.toList, r.toList, rfl, hs.before (by simp [hside]), hs.after (by simp [hside])⟩
    | gt =>
      have hl := hs.before (by simp [hside])
      simp only [hside] at ha
      cases r with
      | nil =>
        cases ha
        exact ⟨l.toList, [], rfl, hl, by simp⟩
      | node rl c k rr =>
        have hs' : Sided side ((l.toList ++ [b]) ++ (node rl c k rr).toList) := by
          simpa using hs
        rcases ihr hs'.right ha with ⟨l₁, l₂, hlist, hbefore, hafter⟩
        refine ⟨l.toList ++ b :: l₁, l₂, by simp [hlist], ?_, hafter⟩
        intro d hd
        rcases List.mem_append.mp hd with hd | hd
        · exact hl d hd
        rcases List.mem_cons.mp hd with hd | hd
        · rw [hd, hside]
        · exact hbefore d hd

/-- A descent of a tree that is not empty stops at some element. -/
theorem locate_isSome (side : α → Ordering) (t : SplayTree α) (h : t ≠ nil) :
    (locate side t).isSome := by
  induction t with
  | nil => exact absurd rfl h
  | node l b m r ihl ihr =>
    rw [locate]
    cases side b with
    | lt => cases l with
      | nil => rfl
      | node ll c k lr => exact ihl (by simp)
    | eq => rfl
    | gt => cases r with
      | nil => rfl
      | node rl c k rr => exact ihr (by simp)

end sided

/-! ## First fit -/

section fit

variable (w : α → Nat)

/-- The descent guided by the cached maxima: the left subtree, the node, the
    right subtree, in this order. `none` when it walks off the tree. -/
def firstFit (need : Nat) : SplayTree α → Option α
  | nil => none
  | node l a _ r =>
    if l.isNil = false ∧ need ≤ l.top then firstFit need l
    else if need ≤ w a then some a
    else firstFit need r

/-- When the cached maximum promises room, the guided descent finds the first
    element that has it. -/
theorem firstFit_spec {need : Nat} (hpos : 0 < need) (ht : t.MaxOk w) (htop : need ≤ t.top) :
    ∃ l₁ a l₂, firstFit w need t = some a ∧ t.toList = l₁ ++ a :: l₂ ∧ need ≤ w a ∧
      ∀ b ∈ l₁, w b < need := by
  induction t with
  | nil => simp at htop; omega
  | node l a m r ihl ihr =>
    rw [firstFit]
    by_cases hl : need ≤ l.top
    · -- The left subtree has room, so it is not empty.
      have hnil : l.isNil = false := by
        cases l with
        | nil => simp at hl; omega
        | node _ _ _ _ => rfl
      rcases ihl ht.left hl with ⟨l₁, b, l₂, hfit, hlist, hw, hbefore⟩
      exact ⟨l₁, b, l₂ ++ a :: r.toList, by simp [hnil, hl, hfit], by simp [hlist], hw, hbefore⟩
    have hsmall : ∀ b ∈ l.toList, w b < need := by
      intro b hb
      have hle := le_heaviest (w := w) hb
      rw [← ht.left.top_eq] at hle
      omega
    rw [if_neg (by simp [hl])]
    by_cases ha : need ≤ w a
    · exact ⟨l.toList, a, r.toList, by simp [ha], rfl, ha, hsmall⟩
    have hr : need ≤ r.top := by
      rw [ht.right.top_eq]
      rw [ht.left.top_eq] at hl
      have hm : need ≤ heaviest w (l.toList ++ a :: r.toList) := ht.1 ▸ htop
      simp only [heaviest_append, heaviest_cons, le_max_iff] at hm
      exact (hm.resolve_left hl).resolve_left ha
    rcases ihr ht.right hr with ⟨l₁, b, l₂, hfit, hlist, hw, hbefore⟩
    refine ⟨l.toList ++ a :: l₁, b, l₂, by simp [ha, hfit], by simp [hlist], hw, ?_⟩
    intro c hc
    rcases List.mem_append.mp hc with hc | hc
    · exact hsmall c hc
    · exact List.forall_mem_cons.mpr ⟨by omega, hbefore⟩ c hc

end fit

end SplayTree

end FreeBSDKern.Lib
