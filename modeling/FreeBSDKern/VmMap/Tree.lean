import FreeBSDKern.VmMap.Model

/-!
# The List and the SplayTree of an Address Map

What it takes for the list of entries and the splay tree to agree, and that
linking, unlinking and resizing an entry keep them in agreement.

The invariant comes in three parts that change at different times. `TreeOk` ties
the tree to the list and never reads an entry; `Laid` says that the entries lie
in order inside the map and never reads the tree; `GapsBut` says that the free
space recorded behind each entry is right, with room for one exception. The
exception is what makes the operations compose: an entry is resized in place
first, which leaves one gap stale, and linking, unlinking or `resizeFree` repairs
exactly that one.

## Main definitions

* `TreeOk`, `Laid`, `GapsBut`: The three parts of the invariant.
* `Map.withTree`: A map with another list and tree.
* `Wf`: The whole invariant.

## Theorems

* `rooted_spec`: An entry can be brought to the root.
* `entryLink_spec`, `entryUnlink_spec`, `resizeFree_spec`: Each operation.
-/

namespace FreeBSDKern.VmMap

open Lib Function

/-- The tree holds the list, and its cached maxima are right. -/
structure TreeOk (m : Map) : Prop where
  nodup : m.list.Nodup
  inorder : m.root.toList = m.list
  maxOk : m.root.MaxOk m.adjFree
  count : m.nentries = m.list.length
  fresh : ∀ i ∈ m.list, i < m.fresh

/-- Entries lie in address order inside the map, without overlap. -/
structure Laid (m : Map) (l : List Nat) : Prop where
  ordered : l.Pairwise fun i j => (m.entry i).stop ≤ (m.entry j).start
  nonempty : ∀ i ∈ l, (m.entry i).start < (m.entry i).stop
  low : ∀ i ∈ l, m.minOffset ≤ (m.entry i).start
  high : ∀ i ∈ l, (m.entry i).stop ≤ m.maxOffset

/-- The free space recorded behind an entry is right. -/
def GapOk (m : Map) (i : Nat) : Prop :=
  m.adjFree i = m.nextStart i - (m.entry i).stop

/-- Every gap is right, except perhaps the one behind a given entry. -/
def GapsBut (m : Map) (x : Option Nat) : Prop :=
  ∀ i ∈ m.list, x ≠ some i → GapOk m i

/-- The bytes some entries map. -/
def mapped (m : Map) (l : List Nat) : Nat :=
  (l.map fun i => (m.entry i).stop - (m.entry i).start).sum

/-- The map is well formed. -/
structure Wf (m : Map) : Prop where
  tree : TreeOk m
  laid : Laid m m.list
  gaps : ∀ i ∈ m.list, GapOk m i
  size : m.size = mapped m m.list
  limit : m.minOffset < 2 ^ 64 ∧ m.maxOffset < 2 ^ 64

/-- The map with another list, tree and record of the gaps. -/
def Map.withTree (m : Map) (l : List Nat) (adj : Nat → Nat) (t : SplayTree Nat) : Map :=
  { m with list := l, nentries := l.length, adjFree := adj, root := t }

section withTree

variable (m : Map) (l : List Nat) (adj : Nat → Nat) (t : SplayTree Nat)

@[simp] theorem withTree_list : (m.withTree l adj t).list = l := rfl
@[simp] theorem withTree_root : (m.withTree l adj t).root = t := rfl
@[simp] theorem withTree_adjFree : (m.withTree l adj t).adjFree = adj := rfl
@[simp] theorem withTree_entry : (m.withTree l adj t).entry = m.entry := rfl
@[simp] theorem withTree_size : (m.withTree l adj t).size = m.size := rfl
@[simp] theorem withTree_minOffset : (m.withTree l adj t).minOffset = m.minOffset := rfl
@[simp] theorem withTree_fresh : (m.withTree l adj t).fresh = m.fresh := rfl
@[simp] theorem withTree_nentries : (m.withTree l adj t).nentries = l.length := rfl

end withTree

variable {m : Map} {l pre post : List Nat} {i : Nat} {t : SplayTree Nat}

theorem Laid.sublist {l' : List Nat} (h : Laid m l) (hs : l'.Sublist l) : Laid m l' where
  ordered := h.ordered.sublist hs
  nonempty i hi := h.nonempty i (hs.subset hi)
  low i hi := h.low i (hs.subset hi)
  high i hi := h.high i (hs.subset hi)

/-- The order only depends on the entries and the limits. -/
theorem Laid.congr {m' : Map} (h : Laid m l) (he : ∀ i ∈ l, m'.entry i = m.entry i)
    (hlo : m'.minOffset = m.minOffset) (hhi : m'.maxOffset = m.maxOffset) : Laid m' l where
  ordered := by
    refine List.Pairwise.imp_of_mem ?_ h.ordered
    intro i j hi hj hij
    rw [he i hi, he j hj]
    exact hij
  nonempty i hi := by
    rw [he i hi]
    exact h.nonempty i hi
  low i hi := by
    rw [he i hi, hlo]
    exact h.low i hi
  high i hi := by
    rw [he i hi, hhi]
    exact h.high i hi

theorem Laid.nodup (h : Laid m l) : l.Nodup := by
  refine List.Pairwise.imp_of_mem ?_ h.ordered
  intro i j hi _ hij heq
  have hne := h.nonempty i hi
  rw [← heq] at hij
  omega

/-- Two entries are the same or apart. -/
theorem Laid.apart (h : Laid m l) {j : Nat} (hi : i ∈ l) (hj : j ∈ l) :
    i = j ∨ (m.entry i).stop ≤ (m.entry j).start ∨ (m.entry j).stop ≤ (m.entry i).start := by
  have hfor := h.ordered.imp (S := fun i j => i = j ∨ (m.entry i).stop ≤ (m.entry j).start ∨
    (m.entry j).stop ≤ (m.entry i).start) fun hij => .inr (.inl hij)
  refine List.Pairwise.forall_of_forall_of_flip (fun i _ => .inl rfl) hfor ?_ hi hj
  exact hfor.imp fun hij => hij.imp Eq.symm Or.symm

/-- At most one entry contains an address. -/
theorem Laid.eq_of_contains (h : Laid m l) {j a : Nat} (hi : i ∈ l) (hj : j ∈ l)
    (hia : (m.entry i).start ≤ a ∧ a < (m.entry i).stop)
    (hja : (m.entry j).start ≤ a ∧ a < (m.entry j).stop) : i = j := by
  rcases h.apart hi hj with heq | hle | hle
  · exact heq
  · omega
  · omega

section side

variable {m : Map} {addr i : Nat}

theorem side_eq_lt : m.side addr i = .lt ↔ addr < (m.entry i).start := by
  rw [Map.side]
  split <;> [skip; split] <;> simp_all

theorem side_eq_gt (h : (m.entry i).start < (m.entry i).stop) :
    m.side addr i = .gt ↔ (m.entry i).stop ≤ addr := by
  rw [Map.side]
  split
  case isTrue hlt => simp; omega
  case isFalse hge => split <;> simp_all

theorem side_eq_eq : m.side addr i = .eq ↔ (m.entry i).start ≤ addr ∧ addr < (m.entry i).stop := by
  rw [Map.side]
  split
  case isTrue hlt => simp; omega
  case isFalse hge => split <;> simp_all

/-- An address order can be searched. -/
theorem Laid.sided (h : Laid m l) (addr : Nat) : SplayTree.Sided (m.side addr) l := by
  refine List.Pairwise.imp_of_mem ?_ h.ordered
  intro i j hi _ hij
  rw [side_eq_gt (h.nonempty i hi), side_eq_lt]
  omega

end side

/-- A list without duplicates splits at an element in one way. -/
theorem split_unique {l₁ l₂ l₃ l₄ : List Nat} (h : (l₁ ++ i :: l₂).Nodup)
    (heq : l₃ ++ i :: l₄ = l₁ ++ i :: l₂) : l₃ = l₁ ∧ l₄ = l₂ := by
  have h' : (l₃ ++ i :: l₄).Nodup := heq ▸ h
  have hback : i ∉ l₄ := (List.nodup_cons.mp (List.nodup_append.mp h').2.1).1
  have hinj := (List.append_cons_inj_of_notMem (notMem_front h') hback).mp heq
  exact ⟨hinj.1, hinj.2.2⟩

/-- What is at the root of a splayed tree, when the position is inside an entry. -/
theorem splay_root {addr : Nat} (hl : Laid m t.toList) (ht : t.MaxOk m.adjFree)
    (hlist : t.toList = pre ++ i :: post) (hside : m.side addr i = .eq) :
    ∃ l c r, m.entrySplay addr t = .node l i c r ∧ l.toList = pre ∧ r.toList = post ∧
      l.MaxOk m.adjFree ∧ r.MaxOk m.adjFree := by
  have hmem := SplayTree.toList_splay m.adjFree (m.side addr) t
  have hmax := SplayTree.maxOk_splay m.adjFree (m.side addr) ht
  cases hs : t.splay m.adjFree (m.side addr) with
  | nil =>
    rw [hs, hlist] at hmem
    simp at hmem
  | node l a c r =>
    have hsplit := SplayTree.splay_splits m.adjFree (hl.sided addr) hs
    rw [hs, SplayTree.toList_node] at hmem
    rw [hs] at hmax
    -- The entry is on neither side of the root, so it is the root.
    have hi : i ∈ l.toList ++ a :: r.toList := by rw [hmem, hlist]; simp
    have ha : i = a := by
      simp only [List.mem_append, List.mem_cons] at hi
      rcases hi with hi | hi | hi
      · rw [hsplit.1 i hi] at hside
        cases hside
      · exact hi
      · rw [hsplit.2 i hi] at hside
        cases hside
    rw [← ha] at hmem hmax hs
    have hnodup : (pre ++ i :: post).Nodup := hlist ▸ hl.nodup
    rcases split_unique hnodup (hmem.trans hlist) with ⟨hpre, hpost⟩
    exact ⟨l, c, r, hs, hpre, hpost, hmax.left, hmax.right⟩

/-- An entry can be brought to the root, with what precedes it on the left. -/
theorem rooted_spec (h : TreeOk m) (hl : Laid m m.list) (hlist : m.list = pre ++ i :: post) :
    ∃ l c r, m.rooted i = .node l i c r ∧ l.toList = pre ∧ r.toList = post ∧
      l.MaxOk m.adjFree ∧ r.MaxOk m.adjFree := by
  have hin := h.inorder
  have hmax := h.maxOk
  rw [Map.rooted]
  cases hr : m.root with
  | nil =>
    rw [hr, hlist] at hin
    simp at hin
  | node l j c r =>
    rw [hr] at hin hmax
    dsimp only
    split
    case isTrue hj =>
      rw [hj] at hin ⊢
      rw [hlist, SplayTree.toList_node] at hin
      have hnodup : (pre ++ i :: post).Nodup := hlist ▸ h.nodup
      rcases split_unique hnodup hin with ⟨hpre, hpost⟩
      exact ⟨l, c, r, rfl, hpre, hpost, hmax.left, hmax.right⟩
    case isFalse hj =>
    have hi : i ∈ m.list := by rw [hlist]; simp
    refine splay_root (hin ▸ hl) hmax (hin.trans hlist) ?_
    rw [side_eq_eq]
    exact ⟨le_refl _, hl.nonempty i hi⟩

theorem nextStart_congr {m' : Map} (hstart : ∀ j ∈ m.list, (m'.entry j).start = (m.entry j).start)
    (hlist : m'.list = m.list) (hmax : m'.maxOffset = m.maxOffset) (i : Nat) :
    m'.nextStart i = m.nextStart i := by
  rw [Map.nextStart, Map.nextStart, hlist, hmax]
  cases hn : next? m.list i with
  | none => rfl
  | some j => exact hstart j (mem_of_next? hn)

/-- The gap behind an entry does not change when neither its record nor its
    successor does. -/
theorem GapOk.congr {m' : Map} (h : GapOk m i) (hadj : m'.adjFree i = m.adjFree i)
    (he : m'.entry = m.entry) (hmax : m'.maxOffset = m.maxOffset)
    (hnext : next? m'.list i = next? m.list i) : GapOk m' i := by
  rw [GapOk, Map.nextStart] at h ⊢
  rw [hadj, hnext, he, hmax]
  exact h

section link

variable {m : Map} {pre post : List Nat} {n : Nat}

/-- Linking leaves the gaps that it does not set as they were. -/
theorem GapsBut.insert {adj : Nat → Nat} (hg : GapsBut m pre.getLast?)
    (hlist : m.list = pre ++ post) (hnodup : (pre ++ n :: post).Nodup)
    (hadj : ∀ i ∈ m.list, pre.getLast? ≠ some i → adj i = m.adjFree i)
    (hlast : ∀ p, pre.getLast? = some p → adj p = (m.entry n).start - (m.entry p).stop)
    (hn : adj n = (m.withTree (pre ++ n :: post) adj t).nextStart n - (m.entry n).stop) :
    GapsBut (m.withTree (pre ++ n :: post) adj t) none := by
  intro i hi _
  rw [withTree_list] at hi
  by_cases hin : i = n
  · rw [hin]
    exact hn
  have hmem : i ∈ pre ++ post := by simpa [hin] using hi
  by_cases hp : pre.getLast? = some i
  · -- The entry before the new one: its gap now ends there.
    have hnext : next? (pre ++ n :: post) i = some n := by
      rw [next?_last hnodup hp, List.head?_cons]
    rw [GapOk, Map.nextStart, withTree_list, hnext]
    exact hlast i hp
  have hi' : i ∈ m.list := hlist ▸ hmem
  refine (hg i hi' hp).congr (hadj i hi' hp) rfl rfl ?_
  rw [withTree_list, next?_insert hnodup hmem hp, hlist]

/-- Linking an entry keeps the list and the tree in agreement, and sets the gaps
    on its two sides. -/
theorem entryLink_spec (h : TreeOk m) (hl : Laid m (pre ++ n :: post))
    (hlist : m.list = pre ++ post) (hn : n < m.fresh) (hg : GapsBut m pre.getLast?) :
    ∃ adj t, m.entryLink pre.getLast? n = m.withTree (pre ++ n :: post) adj t ∧
      TreeOk (m.withTree (pre ++ n :: post) adj t) ∧
      GapsBut (m.withTree (pre ++ n :: post) adj t) none := by
  have hnodup := hl.nodup
  have hlaid : Laid m m.list :=
    hlist ▸ hl.sublist ((List.sublist_cons_self n post).append_left pre)
  have hfresh : ∀ i ∈ pre ++ n :: post, i < m.fresh := by
    intro i hi
    by_cases hin : i = n
    · rw [hin]
      exact hn
    refine h.fresh i ?_
    rw [hlist]
    simpa [hin] using hi
  have hcount : m.nentries + 1 = (pre ++ n :: post).length := by
    rw [h.count, hlist]
    simp; omega
  cases hpre : pre.getLast? with
  | none =>
    rw [List.getLast?_eq_none_iff] at hpre
    subst hpre
    rw [List.nil_append] at hlist hl hnodup hfresh hcount ⊢
    have hnm : n ∉ m.list := by
      rw [hlist]
      exact (List.nodup_cons.mp hnodup).1
    set adj := update m.adjFree n
      (({ m with nentries := m.nentries + 1, list := n :: m.list } : Map).nextStart n
        - (m.entry n).stop) with hadj
    have hkeep : ∀ i ∈ m.list, adj i = m.adjFree i := by
      intro i hi
      have hne : i ≠ n := by
        intro heq
        rw [heq] at hi
        exact hnm hi
      exact update_of_ne hne _ _
    refine ⟨adj, .setMax adj .nil n m.root, ?_, ⟨hnodup, ?_, ?_, rfl, hfresh⟩, ?_⟩
    · rw [Map.entryLink, Map.withTree, ← hcount, ← hlist]
    · rw [withTree_root, withTree_list, SplayTree.toList_setMax, h.inorder, hlist]
      rfl
    · refine SplayTree.maxOk_setMax _ (SplayTree.maxOk_nil _) (h.maxOk.congr ?_)
      rw [h.inorder]
      exact hkeep
    refine GapsBut.insert hg (show m.list = [] ++ post from hlist) hnodup (fun i hi _ => hkeep i hi)
      (by simp) ?_
    rw [hadj, update_self, hlist]
    rfl
  | some p =>
    rcases List.getLast?_eq_some_iff.mp hpre with ⟨front, rfl⟩
    have hlist' : m.list = front ++ p :: post := by simpa using hlist
    rcases rooted_spec h hlaid hlist' with ⟨l, c, r, hroot, hfront, hpost, hlmax, hrmax⟩
    have hins : insertAfter m.list p n = (front ++ [p]) ++ n :: post := by
      rw [hlist', insertAfter_split _ _ _ _ (notMem_front (hlist' ▸ h.nodup))]
      simp
    have hnp : n ≠ p := by
      intro heq
      have hfront := notMem_front hnodup
      rw [heq] at hfront
      simp at hfront
    set adj := update
      (update m.adjFree p ((m.entry n).start - (m.entry p).stop)) n
      ((m.withTree ((front ++ [p]) ++ n :: post) m.adjFree m.root).nextStart n
        - (m.entry n).stop) with hadj
    have hkeep : ∀ i ∈ m.list, p ≠ i → adj i = m.adjFree i := by
      intro i hi hpi
      rw [hadj, update_of_ne, update_of_ne (Ne.symm hpi)]
      rintro rfl
      rw [hlist] at hi
      exact (List.nodup_middle.mp hnodup |> List.nodup_cons.mp).1 hi
    refine ⟨adj, .setMax adj (.setMax adj l p .nil) n r, ?_, ⟨hnodup, ?_, ?_, rfl, hfresh⟩, ?_⟩
    · simp only [Map.entryLink, hroot, hins]
      rw [Map.withTree, ← hcount]
      rfl
    · rw [withTree_root, withTree_list, SplayTree.toList_setMax, SplayTree.toList_setMax, hfront, hpost]
      simp
    · -- Neither the new entry nor the one before it is in the two subtrees.
      have hmem : ∀ i ∈ front ++ p :: post, i ≠ p → adj i = m.adjFree i := by
        intro i hi hne
        exact hkeep i (hlist' ▸ hi) (Ne.symm hne)
      have hsplit : (front ++ p :: post).Nodup := hlist' ▸ h.nodup
      have hl' : l.MaxOk adj := by
        refine hlmax.congr fun i hi => hmem i ?_ ?_
        · rw [hfront] at hi
          simp [hi]
        · rintro rfl
          exact notMem_front hsplit (hfront ▸ hi)
      have hr' : r.MaxOk adj := by
        refine hrmax.congr fun i hi => hmem i ?_ ?_
        · rw [hpost] at hi
          simp [hi]
        · rintro rfl
          exact (List.nodup_cons.mp (List.nodup_append.mp hsplit).2.1).1 (hpost ▸ hi)
      exact SplayTree.maxOk_setMax _ (SplayTree.maxOk_setMax _ hl' (SplayTree.maxOk_nil _)) hr'
    refine GapsBut.insert hg hlist hnodup (fun i hi hpi => hkeep i hi (by simpa using hpi))
      ?_ ?_
    · intro q hq
      rw [hpre, Option.some.injEq] at hq
      rw [← hq, hadj, update_of_ne (Ne.symm hnp), update_self]
    · rw [hadj, update_self]
      rfl

end link

section unlink

variable {m : Map} {pre post : List Nat} {i : Nat}

theorem toList_eq_nil (h : t.toList = []) : t = .nil := by
  cases t with
  | nil => rfl
  | node l a c r => simp at h

/-- Unlinking leaves the gaps that it does not set as they were. -/
theorem GapsBut.erase {adj : Nat → Nat}
    (hg : ∀ j ∈ m.list, j ≠ i → pre.getLast? ≠ some j → GapOk m j)
    (hlist : m.list = pre ++ i :: post) (hnodup : (pre ++ i :: post).Nodup)
    (hadj : ∀ j ∈ pre ++ post, pre.getLast? ≠ some j → adj j = m.adjFree j)
    (hlast : ∀ p, pre.getLast? = some p → adj p = m.nextStart i - (m.entry p).stop) :
    GapsBut (m.withTree (pre ++ post) adj t) none := by
  intro j hj _
  rw [withTree_list] at hj
  have hsub : (pre ++ post).Nodup :=
    hnodup.sublist ((List.sublist_cons_self i post).append_left pre)
  by_cases hp : pre.getLast? = some j
  · -- The entry before the one removed: its gap now ends where the other's did.
    have hnext : next? m.list i = post.head? := by
      rw [hlist]
      exact next?_split _ _ _ (notMem_front hnodup)
    have hgap := hlast j hp
    rw [Map.nextStart, hnext] at hgap
    rw [GapOk, Map.nextStart, withTree_list, next?_last hsub hp]
    exact hgap
  have hne : j ≠ i := by
    rintro rfl
    exact (List.nodup_cons.mp (List.nodup_middle.mp hnodup)).1 hj
  have hj' : j ∈ m.list := by
    rw [hlist]
    simp only [List.mem_append, List.mem_cons] at hj ⊢
    exact hj.imp_right .inr
  refine (hg j hj' hne hp).congr (hadj j hj hp) rfl rfl ?_
  rw [withTree_list, hlist, next?_insert hnodup hj hp]

/-- Unlinking an entry keeps the list and the tree in agreement, and gives its
    room to the gap before it. -/
theorem entryUnlink_spec (h : TreeOk m) (hl : Laid m m.list) (hlist : m.list = pre ++ i :: post)
    (hg : ∀ j ∈ m.list, j ≠ i → pre.getLast? ≠ some j → GapOk m j) :
    ∃ adj t, m.entryUnlink i = m.withTree (pre ++ post) adj t ∧
      TreeOk (m.withTree (pre ++ post) adj t) ∧ GapsBut (m.withTree (pre ++ post) adj t) none := by
  have hnodup : (pre ++ i :: post).Nodup := hlist ▸ h.nodup
  have hsub : (pre ++ post).Sublist m.list := by
    rw [hlist]
    exact (List.sublist_cons_self i post).append_left pre
  have herase : m.list.erase i = pre ++ post := by
    rw [hlist, erase_split _ _ _ (notMem_front hnodup)]
  have hcount : m.nentries - 1 = (pre ++ post).length := by
    rw [h.count, hlist]
    simp
  rcases rooted_spec h hl hlist with ⟨l, c, r, hroot, hpre, hpost, hlmax, hrmax⟩
  have hfresh : ∀ j ∈ pre ++ post, j < m.fresh := fun j hj => h.fresh j (hsub.subset hj)
  rcases List.eq_nil_or_concat pre with rfl | ⟨front, p, rfl⟩
  · -- Nothing on the left: the right subtree is the whole tree.
    have hnil := toList_eq_nil hpre
    subst hnil
    refine ⟨m.adjFree, r, ?_, ⟨h.nodup.sublist hsub, hpost, hrmax, rfl, hfresh⟩, ?_⟩
    · simp only [Map.entryUnlink, hroot, Map.entrySplay, herase]
      rw [Map.withTree, ← hcount]
      rfl
    · exact GapsBut.erase hg hlist hnodup (fun _ _ _ => rfl) (by simp)
  rw [List.concat_eq_append] at *
  have hlt : l.toList = front ++ p :: [] := hpre
  have hll : Laid m l.toList := by
    refine hl.sublist ?_
    rw [hpre, hlist]
    exact List.sublist_append_left _ _
  -- Everything on the left ends at or before the entry.
  have hgt : ∀ j ∈ l.toList, m.side (m.entry i).start j = .gt := by
    intro j hj
    rw [side_eq_gt (hll.nonempty j hj)]
    have hord := hl.ordered
    rw [hlist] at hord
    exact (List.pairwise_append.mp hord).2.2 j (hpre ▸ hj) i (by simp)
  have hmem := SplayTree.toList_splay m.adjFree (m.side (m.entry i).start) l
  have hmax := SplayTree.maxOk_splay m.adjFree (m.side (m.entry i).start) hlmax
  cases hs : l.splay m.adjFree (m.side (m.entry i).start) with
  | nil =>
    rw [hs, hlt] at hmem
    simp at hmem
  | node ll x cx rr =>
    have hsplit := SplayTree.splay_splits m.adjFree (hll.sided _) hs
    rw [hs] at hmem hmax
    have hrr : rr.toList = [] := by
      rw [List.eq_nil_iff_forall_not_mem]
      intro j hj
      have hgtj := hgt j (by rw [← hmem]; simp [hj])
      rw [hsplit.2 j hj] at hgtj
      cases hgtj
    rw [SplayTree.toList_node, hrr, hlt] at hmem
    rcases List.append_inj' hmem rfl with ⟨hfront, hx⟩
    rw [List.cons.injEq] at hx
    rcases hx with ⟨rfl, -⟩
    set adj := update m.adjFree x (m.nextStart i - (m.entry x).stop) with hadj
    have hlast : ((front ++ [x]) : List Nat).getLast? = some x := by simp
    have hkeep : ∀ j, j ≠ x → adj j = m.adjFree j := fun j hj => update_of_ne hj _ _
    have hfirst : x ∉ front ∧ x ∉ post := by
      have hnd := hnodup
      simp only [List.append_assoc, List.singleton_append] at hnd
      refine ⟨notMem_front hnd, fun hin => ?_⟩
      have hno := (List.nodup_cons.mp (List.nodup_append.mp hnd).2.1).1
      exact hno (List.mem_cons_of_mem _ hin)
    refine ⟨adj, .setMax adj ll x r, ?_, ⟨h.nodup.sublist hsub, ?_, ?_, rfl, hfresh⟩, ?_⟩
    · simp only [Map.entryUnlink, hroot, Map.entrySplay, hs, herase]
      rw [Map.withTree, ← hcount]
    · rw [withTree_root, withTree_list, SplayTree.toList_setMax, hfront, hpost]
      simp
    · refine SplayTree.maxOk_setMax _ (hmax.left.congr fun j hj => hkeep j ?_)
        (hrmax.congr fun j hj => hkeep j ?_)
      · rintro rfl
        exact hfirst.1 (hfront ▸ hj)
      · rintro rfl
        exact hfirst.2 (hpost ▸ hj)
    refine GapsBut.erase hg hlist hnodup (fun j _ hj => hkeep j ?_) ?_
    · rintro rfl
      exact hj hlast
    intro q hq
    rw [hlast, Option.some.injEq] at hq
    rw [← hq, hadj, update_self]

end unlink

/-- Recomputing the free space behind an entry repairs the gap there. -/
theorem resizeFree_spec (h : TreeOk m) (hl : Laid m m.list) (hi : i ∈ m.list)
    (hg : GapsBut m (some i)) : ∃ adj t, m.resizeFree i = m.withTree m.list adj t ∧
      TreeOk (m.withTree m.list adj t) ∧ GapsBut (m.withTree m.list adj t) none := by
  rcases List.append_of_mem hi with ⟨pre, post, hlist⟩
  rcases rooted_spec h hl hlist with ⟨l, c, r, hroot, hpre, hpost, hlmax, hrmax⟩
  have hnodup : (pre ++ i :: post).Nodup := hlist ▸ h.nodup
  set adj := update m.adjFree i (m.nextStart i - (m.entry i).stop) with hadj
  have hkeep : ∀ j, j ≠ i → adj j = m.adjFree j := fun j hj => update_of_ne hj _ _
  refine ⟨adj, .setMax adj l i r, ?_, ⟨h.nodup, ?_, ?_, rfl, h.fresh⟩, ?_⟩
  · simp only [Map.resizeFree, hroot]
    rw [Map.withTree, ← h.count]
  · rw [withTree_root, withTree_list, SplayTree.toList_setMax, hpre, hpost, hlist]
  · refine SplayTree.maxOk_setMax _ (hlmax.congr fun j hj => hkeep j ?_)
      (hrmax.congr fun j hj => hkeep j ?_)
    · rintro rfl
      exact notMem_front hnodup (hpre ▸ hj)
    · rintro rfl
      exact (List.nodup_cons.mp (List.nodup_append.mp hnodup).2.1).1 (hpost ▸ hj)
  intro j hj _
  by_cases hji : j = i
  · rw [hji, GapOk, withTree_adjFree, hadj, update_self]
    rfl
  · exact (hg j hj (by simpa using Ne.symm hji)).congr (hkeep j hji) rfl rfl rfl

/-- What follows the last entry of a first part of the list. -/
theorem nextOf_split (h : m.list.Nodup) (hlist : m.list = pre ++ post) :
    m.nextOf pre.getLast? = post.head? := by
  cases hlast : pre.getLast? with
  | none =>
    rw [List.getLast?_eq_none_iff] at hlast
    rw [hlast, List.nil_append] at hlist
    exact congrArg List.head? hlist
  | some p =>
    show next? m.list p = post.head?
    rw [hlist]
    exact next?_last (hlist ▸ h) hlast

section gaps

variable {m : Map} {pre post : List Nat} {i j : Nat}

theorem next?_of_split (h : l.Nodup) (hlist : l = pre ++ i :: post) : next? l i = post.head? := by
  rw [hlist, next?_split _ _ _ (notMem_front (hlist ▸ h))]

/-- Behind an entry comes the start of the next one, or the end of the map. -/
theorem nextStart_split (h : m.list.Nodup) (hlist : m.list = pre ++ i :: post) :
    m.nextStart i = post.head?.elim m.maxOffset fun j => (m.entry j).start := by
  rw [Map.nextStart, next?_of_split h hlist]
  cases post <;> rfl

section

variable (h : Laid m m.list) (hlist : m.list = pre ++ i :: post)
include h hlist

theorem nextStart_le (hj : j ∈ post) :
    m.nextStart i ≤ (m.entry j).start := by
  rw [nextStart_split h.nodup hlist]
  cases post with
  | nil => cases hj
  | cons k post =>
    rw [List.head?_cons, Option.elim_some]
    rcases List.mem_cons.mp hj with hj | hj
    · rw [hj]
    have hsub : (k :: post).Sublist m.list := by
      rw [hlist]
      exact (List.sublist_cons_self i _).trans (List.sublist_append_right pre _)
    have hk := (List.pairwise_cons.mp (h.sublist hsub).ordered).1 j hj
    have hne := h.nonempty k (hsub.subset (by simp))
    omega

theorem stop_le_nextStart :
    (m.entry i).stop ≤ m.nextStart i := by
  rw [nextStart_split h.nodup hlist]
  cases post with
  | nil => exact h.high i (by simp [hlist])
  | cons k post =>
    have hord := h.ordered
    rw [hlist] at hord
    exact (List.pairwise_cons.mp (List.pairwise_append.mp hord).2.1).1 k (by simp)

theorem nextStart_le_max :
    m.nextStart i ≤ m.maxOffset := by
  rw [nextStart_split h.nodup hlist]
  cases post with
  | nil => exact le_refl _
  | cons k post =>
    have hk : k ∈ m.list := by simp [hlist]
    have h1 := h.nonempty k hk
    have h2 := h.high k hk
    rw [List.head?_cons, Option.elim_some]
    omega

end

/-- A right gap reaches to what comes next. -/
theorem GapOk.stop_add (hg : GapOk m i) (h : Laid m m.list) (hlist : m.list = pre ++ i :: post) :
    (m.entry i).stop + m.adjFree i = m.nextStart i := by
  have hle := stop_le_nextStart h hlist
  rw [GapOk] at hg
  omega

end gaps

/-- A splay changes nothing but the shape of the tree. -/
theorem TreeOk.splay (h : TreeOk m) (addr : Nat) :
    TreeOk { m with root := m.entrySplay addr m.root } where
  nodup := h.nodup
  inorder := (SplayTree.toList_splay _ _ _).trans h.inorder
  maxOk := SplayTree.maxOk_splay _ _ h.maxOk
  count := h.count
  fresh := h.fresh

theorem Wf.splay (h : Wf m) (addr : Nat) : Wf { m with root := m.entrySplay addr m.root } where
  tree := h.tree.splay addr
  laid := h.laid.congr (fun _ _ => rfl) rfl rfl
  gaps i hi := (h.gaps i hi).congr rfl rfl rfl rfl
  size := h.size
  limit := h.limit

/-! ## A small map -/

/-- The rest of the kernel when swap space is plentiful and no object can be
    extended. -/
def plainEnv : Env where
  cred := 0
  swapReserve _ := true
  coalesce obj _ _ _ _ _ := (false, obj)
  pageRemove b := b

/-- A map of two pages with a free page between them. -/
def sample : Map where
  entry i := if i = 0 then { start := 8192, stop := 12288, protection := 3, maxProtection := 7 }
    else { start := 16384, stop := 20480, protection := 3, maxProtection := 7 }
  adjFree i := if i = 0 then 4096 else 1028096
  list := [0, 1]
  root := .node .nil 0 1028096 (.node .nil 1 1028096 .nil)
  nentries := 2
  size := 8192
  minOffset := 4096
  maxOffset := 1048576
  systemMap := false
  kernelPmap := false
  timestamp := 0
  wired _ := false
  fresh := 2
  obj _ := { size := 0 }
  freshObj := 0

theorem sample_wf : Wf sample where
  tree := ⟨by decide, rfl, ⟨rfl, trivial, rfl, trivial, trivial⟩, rfl, by decide⟩
  laid := ⟨by decide, by decide, by decide, by decide⟩
  gaps := by
    show ∀ i ∈ [0, 1], sample.adjFree i = sample.nextStart i - (sample.entry i).stop
    decide
  size := rfl
  limit := by decide

end FreeBSDKern.VmMap
