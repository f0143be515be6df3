import FreeBSDKern.VmMap.Tree

/-!
# Looking an Address Up

`vm_map_lookup_entry` has two ways of searching. With the write lock it splays
the tree and looks at the new root, which is the entry that contains the address
or one of its two neighbours; without, it walks down and stops at an entry that
need not be the same. Both find an entry that splits the list at the address, and
from there the answer is the last entry that is not behind the address.

## Main definitions

* `Answers`: What a lookup is for.

## Theorems

* `lookup_spec`: A lookup answers the question and only reshapes the tree.
* `lookup_entry_paths_agree`: The two searches give the same answer.
-/

namespace FreeBSDKern.VmMap

open Lib

/-- Whether an address is mapped, and the entry that contains it or else the last
    one that ends at or before it. -/
inductive Answers (m : Map) (a : Nat) : Bool × Option Nat → Prop where
  | hit (pre : List Nat) (i : Nat) (post : List Nat) (hlist : m.list = pre ++ i :: post)
      (hstart : (m.entry i).start ≤ a) (hstop : a < (m.entry i).stop) : Answers m a (true, some i)
  | miss (pre post : List Nat) (hlist : m.list = pre ++ post)
      (hpre : ∀ i ∈ pre, (m.entry i).stop ≤ a) (hpost : ∀ i ∈ post, a < (m.entry i).start) :
      Answers m a (false, pre.getLast?)

/-- The answer at an entry that splits the list: a hit, the entry, or the entry
    before it. -/
def answerAt (m : Map) (a cur : Nat) : Bool × Option Nat :=
  match m.side a cur with
  | .eq => (true, some cur)
  | .gt => (false, some cur)
  | .lt => (false, prev? m.list cur)

theorem answerAt_answers {m : Map} (h : Wf m) {a cur : Nat} {pre post : List Nat}
    (hlist : m.list = pre ++ cur :: post) (hs : SplayTree.Splits (m.side a) pre post) :
    Answers m a (answerAt m a cur) := by
  have hmem : ∀ i, i ∈ pre ∨ i = cur ∨ i ∈ post → i ∈ m.list := by
    intro i hi
    rw [hlist]
    simpa using hi
  have hgt : ∀ i ∈ pre, (m.entry i).stop ≤ a := by
    intro i hi
    exact (side_eq_gt (h.laid.nonempty i (hmem i (.inl hi)))).mp (hs.1 i hi)
  have hlt : ∀ i ∈ post, a < (m.entry i).start := fun i hi => side_eq_lt.mp (hs.2 i hi)
  rw [answerAt]
  cases hside : m.side a cur with
  | eq =>
    rcases side_eq_eq.mp hside with ⟨hstart, hstop⟩
    exact .hit pre cur post hlist hstart hstop
  | gt =>
    have hcur := (side_eq_gt (h.laid.nonempty cur (hmem cur (.inr (.inl rfl))))).mp hside
    have hmiss := Answers.miss (m := m) (a := a) (pre ++ [cur]) post (by simpa using hlist)
      (by simpa [or_imp, forall_and] using ⟨hgt, hcur⟩) hlt
    rwa [List.getLast?_concat] at hmiss
  | lt =>
    have hcur := side_eq_lt.mp hside
    have hprev : prev? m.list cur = pre.getLast? := by
      have hnodup := h.tree.nodup
      rw [hlist] at hnodup ⊢
      exact prev?_append hnodup
    dsimp only
    rw [hprev]
    refine .miss pre (cur :: post) hlist hgt fun i hi => ?_
    rcases List.mem_cons.mp hi with hi | hi
    · rw [hi]
      exact hcur
    · exact hlt i hi

theorem lookup_spec {m : Map} (h : Wf m) (w : Bool) (a : Nat) :
    ∃ t b e, m.lookupEntry w a = ({ m with root := t }, b, e) ∧ Wf { m with root := t } ∧
      Answers m a (b, e) := by
  have hin := h.tree.inorder
  rw [Map.lookupEntry]
  cases hroot : m.root with
  | nil =>
    refine ⟨.nil, false, none, ?_, ?_, ?_⟩
    · rcases m with ⟨⟩
      cases hroot
      rfl
    · exact hroot ▸ h
    · rw [hroot] at hin
      exact .miss [] [] hin.symm (by simp) (by simp)
  | node l cur c r =>
    dsimp only
    have hne : m.root ≠ .nil := by simp [hroot]
    split
    case isTrue hside =>
      -- The root contains the address.
      rw [hroot, SplayTree.toList_node] at hin
      rcases side_eq_eq.mp hside with ⟨hstart, hstop⟩
      exact ⟨m.root, true, some cur, rfl, h, .hit _ _ _ hin.symm hstart hstop⟩
    case isFalse hside =>
    cases w with
    | true =>
      have hw := h.splay a
      rw [if_pos rfl, ← hroot]
      cases hs : m.entrySplay a m.root with
      | nil => exact absurd hs (SplayTree.splay_ne_nil _ _ hne)
      | node l' x c' r' =>
        rw [hs] at hw
        have hlist : l'.toList ++ x :: r'.toList = m.list := hw.tree.inorder
        have hsplit := SplayTree.splay_splits m.adjFree
          (hin ▸ h.laid.sided a : SplayTree.Sided (m.side a) m.root.toList) hs
        have hans := answerAt_answers h hlist.symm hsplit
        refine ⟨_, (answerAt m a x).1, (answerAt m a x).2, ?_, hw, hans⟩
        dsimp only
        rw [answerAt]
        have hside' : ({ m with root := .node l' x c' r' } : Map).side a x = m.side a x := rfl
        rw [hside']
        cases m.side a x <;> rfl
    | false =>
      rw [if_neg (by simp), ← hroot]
      rcases Option.isSome_iff_exists.mp (SplayTree.locate_isSome (m.side a) m.root hne) with ⟨x, hx⟩
      rcases SplayTree.locate_splits (hin ▸ h.laid.sided a) hx with ⟨l₁, l₂, hlist, hsplit⟩
      have hans := answerAt_answers h (hin.symm.trans hlist) hsplit
      refine ⟨m.root, (answerAt m a x).1, (answerAt m a x).2, ?_, h, hans⟩
      rw [hx]
      dsimp only
      rw [answerAt]
      cases m.side a x <;> rfl

/-- Two elements on the wrong sides of each other's splits cannot both be last. -/
theorem miss_unique {m : Map} {a : Nat} {pre post pre' post' : List Nat}
    (h : Laid m (pre ++ post)) (heq : pre ++ post = pre' ++ post')
    (hpre : ∀ i ∈ pre, (m.entry i).stop ≤ a) (hpost : ∀ i ∈ post, a < (m.entry i).start)
    (hpre' : ∀ i ∈ pre', (m.entry i).stop ≤ a) (hpost' : ∀ i ∈ post', a < (m.entry i).start) :
    pre = pre' := by
  rcases List.append_eq_append_iff.mp heq with ⟨c, hc, hc'⟩ | ⟨c, hc, hc'⟩
  · cases c with
    | nil => simpa using hc.symm
    | cons i c =>
      have h1 := hpost i (by simp [hc'])
      have h2 := hpre' i (by simp [hc])
      have h3 := h.nonempty i (by simp [hc'])
      omega
  cases c with
  | nil => simpa using hc
  | cons i c =>
    have h1 := hpost' i (by simp [hc'])
    have h2 := hpre i (by simp [hc])
    have h3 := h.nonempty i (by simp [hc])
    omega

/-- An entry is not between two parts of the list. -/
theorem outside_of_split {m : Map} {pre rest : List Nat} {lo hi j : Nat}
    (hlist : m.list = pre ++ rest) (hpre : ∀ j ∈ pre, (m.entry j).stop ≤ lo)
    (hrest : ∀ j ∈ rest, hi ≤ (m.entry j).start) (hj : j ∈ m.list) :
    (m.entry j).stop ≤ lo ∨ hi ≤ (m.entry j).start := by
  rw [hlist, List.mem_append] at hj
  exact hj.imp (hpre j) (hrest j)

/-- There is one answer. -/
theorem Answers.unique {m : Map} {a : Nat} {r r' : Bool × Option Nat} (h : Laid m m.list)
    (hr : Answers m a r) (hr' : Answers m a r') : r = r' := by
  cases hr with
  | hit pre i post hlist hstart hstop =>
    have hi : i ∈ m.list := by simp [hlist]
    cases hr' with
    | hit pre' j post' hlist' hstart' hstop' =>
      have hj : j ∈ m.list := by simp [hlist']
      have hij := h.eq_of_contains hi hj ⟨hstart, hstop⟩ ⟨hstart', hstop'⟩
      rw [hij]
    | miss pre' post' hlist' hpre' hpost' =>
      have := outside_of_split hlist' hpre' hpost' hi
      omega
  | miss pre post hlist hpre hpost =>
    cases hr' with
    | hit pre' i post' hlist' hstart hstop =>
      have hi : i ∈ m.list := by simp [hlist']
      have := outside_of_split hlist hpre hpost hi
      omega
    | miss pre' post' hlist' hpre' hpost' =>
      rw [miss_unique (hlist ▸ h) (hlist.symm.trans hlist') hpre hpost hpre' hpost']

/-- Both ways of searching give the one right answer, whether or not an entry
    contains the address, and neither changes anything but the shape of the tree:
    its in-order sequence and its cached maxima stay right. -/
theorem lookup_entry_paths_agree (m : Map) (h : Wf m) (a : Nat) :
    (m.lookupEntry true a).2 = (m.lookupEntry false a).2 ∧ Answers m a (m.lookupEntry true a).2 ∧
      ∀ w, (m.lookupEntry w a).1 = { m with root := (m.lookupEntry w a).1.root } ∧
        (m.lookupEntry w a).1.root.toList = m.list ∧
        (m.lookupEntry w a).1.root.MaxOk m.adjFree := by
  rcases lookup_spec h true a with ⟨t, b, e, heq, hwf, hans⟩
  rcases lookup_spec h false a with ⟨t', b', e', heq', hwf', hans'⟩
  refine ⟨?_, ?_, ?_⟩
  · rw [heq, heq']
    exact hans.unique h.laid hans'
  · rw [heq]
    exact hans
  intro w
  cases w with
  | true =>
    rw [heq]
    exact ⟨rfl, hwf.tree.inorder, hwf.tree.maxOk⟩
  | false =>
    rw [heq']
    exact ⟨rfl, hwf'.tree.inorder, hwf'.tree.maxOk⟩

/-- Between the two pages, both searches answer with the first page. -/
theorem lookup_entry_paths_agree_sample :
    (sample.lookupEntry true 13000).2 = (sample.lookupEntry false 13000).2 ∧
      Answers sample 13000 (false, some 0) := by
  have h := lookup_entry_paths_agree sample sample_wf 13000
  exact ⟨h.1, h.2.1⟩

end FreeBSDKern.VmMap
