import FreeBSDKern.VmMap.Lookup

/-!
# Finding Free Space

`vm_map_findspace` looks for the lowest place at or above an address where a
length fits. It splays the tree there, which leaves every entry at or before the
address on the left; the place is then in front of the root, in the gap behind
the root, or behind the first entry of the right subtree whose gap is large
enough, which the cached maxima lead to.

An address where the length fits lies in exactly one gap, the one behind the last
entry not behind it (`gap_behind`), so a lower place would have been found in one
of the gaps the search has turned down.

## Main definitions

* `Map.findspace`: `vm_map_findspace`.
* `Fits`: A length fits at an address.

## Theorems

* `gap_behind`: A place lies in the gap behind some entry.
* `findspace_first_fit`: The search is exact first fit.
-/

namespace FreeBSDKern.VmMap

open Lib

/-- What a search for free space comes to. -/
inductive Space where
  | found (addr : Nat)
  | noSpace
  | panic
  deriving Repr, DecidableEq

/-- `vm_map_findspace` below the root: the gap behind it, then its right
    subtree. -/
def Map.findBehind (m : Map) (i : Nat) (r : SplayTree Nat) (start length : Nat) : Space :=
  let st := max start (m.entry i).stop
  if length ≤ usub (uadd (m.entry i).stop (m.adjFree i)) st then .found st
  else if r.isNil = true ∨ r.top < length then .noSpace
  else
    match r.firstFit m.adjFree length with
    | some e => .found (m.entry e).stop
    | none => .panic

/-- `vm_map_findspace`: the lowest place for a length at or above an address. -/
def Map.findspace (m : Map) (start length : Nat) : Map × Space :=
  let start := max start m.minOffset
  if m.maxOffset < uadd start length ∨ uadd start length < start then (m, .noSpace)
  else
    match m.root with
    | .nil => (m, .found start)
    | _ =>
      let m := { m with root := m.entrySplay start m.root }
      match m.root with
      | .nil => (m, .panic)
      | .node _ i _ r =>
        if uadd start length ≤ (m.entry i).start then (m, .found start)
        else (m, m.findBehind i r start length)

/-- A length fits at an address: it does not wrap, ends inside the map and meets
    no entry. -/
structure Fits (m : Map) (length a : Nat) : Prop where
  nowrap : a + length < 2 ^ 64
  inside : a + length ≤ m.maxOffset
  free : ∀ i ∈ m.list, a + length ≤ (m.entry i).start ∨ (m.entry i).stop ≤ a

/-- A place behind some entry lies in the gap behind the last such entry. -/
theorem gap_behind {m : Map} (h : Wf m) {length a : Nat} (hlen : 0 < length)
    (hf : Fits m length a) {i : Nat} (hi : i ∈ m.list) (hia : (m.entry i).stop ≤ a) :
    ∃ pre k post, m.list = pre ++ k :: post ∧ i ∈ pre ++ [k] ∧ (m.entry k).stop ≤ a ∧
      a + length ≤ m.nextStart k := by
  rcases lookup_spec h true a with ⟨t, b, e, -, -, hans⟩
  cases hans with
  | hit pre k post hlist hstart hstop =>
    have hfree := hf.free k (by simp [hlist])
    omega
  | miss pre post hlist hpre hpost =>
    -- The entry is before the address, so there is a last such entry.
    have hin : i ∈ pre := by
      rw [hlist, List.mem_append] at hi
      rcases hi with hi | hi
      · exact hi
      have := hpost i hi
      have := h.laid.nonempty i (by simp [hlist, hi])
      omega
    rcases List.eq_nil_or_concat pre with rfl | ⟨front, k, rfl⟩
    · cases hin
    rw [List.concat_eq_append] at *
    have hlist' : m.list = front ++ k :: post := by simpa using hlist
    refine ⟨front, k, post, hlist', hin, hpre k (by simp), ?_⟩
    rw [nextStart_split h.tree.nodup hlist']
    cases post with
    | nil => exact hf.inside
    | cons j post =>
      have hfree := hf.free j (by simp [hlist])
      have hj := hpost j (by simp)
      have hne := h.laid.nonempty j (by simp [hlist])
      rw [List.head?_cons, Option.elim_some]
      omega

/-- What the search is for: the least place at or above an address, if any. -/
def FirstFit (m : Map) (lo length : Nat) : Space → Prop
  | .found a => IsLeast {a | lo ≤ a ∧ Fits m length a} a
  | .noSpace => ∀ a, lo ≤ a → ¬Fits m length a
  | .panic => False

theorem uadd_eq {a b : Nat} (h : a + b < 2 ^ 64) : uadd a b = a + b := Nat.mod_eq_of_lt h

theorem usub_eq {a b : Nat} (hle : b ≤ a) (h : a < 2 ^ 64) : usub a b = a - b := by
  rw [usub, Nat.mod_eq_of_lt (by omega : b < 2 ^ 64)]
  omega

section behind

variable {m : Map} {pre post : List Nat} {i start length : Nat}

/-- A length that ends by the next entry fits behind an entry. -/
theorem fits_behind (h : Wf m) (hlist : m.list = pre ++ i :: post) {a : Nat}
    (hia : (m.entry i).stop ≤ a) (hnext : a + length ≤ m.nextStart i) : Fits m length a := by
  have hmax := nextStart_le_max h.laid hlist
  have hlimit := h.limit.2
  refine ⟨by omega, by omega, fun j hj => ?_⟩
  have hord := h.laid.ordered
  rw [hlist] at hord
  rw [hlist, List.mem_append, List.mem_cons] at hj
  rcases hj with hj | hj | hj
  · have hji := (List.pairwise_append.mp hord).2.2 j hj i (by simp)
    have hne := h.laid.nonempty i (by simp [hlist])
    omega
  · rw [hj]
    exact .inr hia
  · have := nextStart_le h.laid hlist hj
    omega

/-- Behind a later entry nothing lies lower. -/
theorem stop_le_of_mem (h : Laid m m.list) (hlist : m.list = pre ++ i :: post) {j : Nat}
    (hj : j ∈ i :: post) : (m.entry i).stop ≤ (m.entry j).stop := by
  rcases List.mem_cons.mp hj with hj | hj
  · rw [hj]
  have hord := h.ordered
  rw [hlist] at hord
  have hij := (List.pairwise_cons.mp (List.pairwise_append.mp hord).2.1).1 j hj
  have hne := h.nonempty j (by simp [hlist, hj])
  omega

/-- Below the root: the gap behind it comes first, and the subtree on the right is
    searched from the left. -/
theorem findBehind_spec (h : Wf m) (hlist : m.list = pre ++ i :: post) {r : SplayTree Nat}
    (hr : r.toList = post) (hmax : r.MaxOk m.adjFree) (hlen : 0 < length)
    (hstart : start ≤ m.nextStart i) (hroot : (m.entry i).start < start + length) :
    FirstFit m start length (m.findBehind i r start length) := by
  have hi : i ∈ m.list := by simp [hlist]
  have hgap := (h.gaps i hi).stop_add h.laid hlist
  have hnextmax := nextStart_le_max h.laid hlist
  have hstopnext := stop_le_nextStart h.laid hlist
  have hlimit := h.limit.2
  -- Any place is behind the root, and not in the root's own gap unless it is large enough.
  have hbehind : ∀ a, start ≤ a → Fits m length a → (m.entry i).stop ≤ a := by
    intro a ha hf
    rcases hf.free i hi with hfree | hfree
    · omega
    · exact hfree
  rw [Map.findBehind]
  generalize hst : max start (m.entry i).stop = st
  rw [uadd_eq (by omega), usub_eq (by omega) (by omega), hgap]
  split
  case isTrue hfit =>
    refine ⟨⟨by omega, fits_behind h hlist (by omega) (by omega)⟩, ?_⟩
    rintro a ⟨ha, hf⟩
    have := hbehind a ha hf
    omega
  case isFalse hfit =>
  -- The gap that holds a place belongs to an entry of the right subtree.
  have hright : ∀ a, start ≤ a → Fits m length a → ∃ k ∈ post, (m.entry k).stop ≤ a ∧
      length ≤ m.adjFree k := by
    intro a ha hf
    have hia := hbehind a ha hf
    rcases gap_behind h hlen hf hi hia with ⟨pre', k, post', hlist', hin, hka, hroom⟩
    have hk : k ∈ m.list := by simp [hlist']
    have hgapk := (h.gaps k hk).stop_add h.laid hlist'
    refine ⟨k, ?_, hka, by omega⟩
    have hne : k ≠ i := by
      rintro rfl
      omega
    -- An entry at or behind another in the list cannot be before it.
    have hik : (m.entry i).stop ≤ (m.entry k).start := by
      rcases List.mem_append.mp hin with hin | hin
      · have hord := h.laid.ordered
        rw [hlist'] at hord
        exact (List.pairwise_append.mp hord).2.2 i hin k (by simp)
      · exact absurd (List.mem_singleton.mp hin).symm hne
    rw [hlist, List.mem_append, List.mem_cons] at hk
    rcases hk with hk | hk | hk
    · have hord := h.laid.ordered
      rw [hlist] at hord
      have hki := (List.pairwise_append.mp hord).2.2 k hk i (by simp)
      have h1 := h.laid.nonempty k (by simp [hlist, hk])
      have h2 := h.laid.nonempty i hi
      omega
    · exact absurd hk hne
    · exact hk
  split
  case isTrue hnone =>
    intro a ha hf
    rcases hright a ha hf with ⟨k, hk, -, hroom⟩
    have htop := SplayTree.le_heaviest (w := m.adjFree) (hr ▸ hk : k ∈ r.toList)
    rw [← hmax.top_eq] at htop
    rcases hnone with hnil | hless
    · cases r with
      | nil =>
        rw [← hr] at hk
        simp at hk
      | node _ _ _ _ => simp [SplayTree.isNil] at hnil
    · omega
  case isFalse hsome =>
  have htop : length ≤ r.top := by
    rw [not_or] at hsome
    omega
  rcases SplayTree.firstFit_spec m.adjFree hlen hmax htop with ⟨l₁, e, l₂, hfit', hsplit, hroom, hless⟩
  rw [hfit']
  have hlist' : m.list = (pre ++ i :: l₁) ++ e :: l₂ := by
    rw [hlist, ← hr, hsplit]
    simp
  have he : e ∈ m.list := by simp [hlist']
  have hgape := (h.gaps e he).stop_add h.laid hlist'
  refine ⟨⟨?_, fits_behind h hlist' (le_refl _) (by omega)⟩, ?_⟩
  · -- The search address is not past the root's gap, and the entry is behind that.
    have := nextStart_le h.laid hlist (j := e) (by rw [← hr, hsplit]; simp)
    have := h.laid.nonempty e he
    omega
  rintro a ⟨ha, hf⟩
  rcases hright a ha hf with ⟨k, hk, hka, hroomk⟩
  have hke : k ∈ e :: l₂ := by
    rw [← hr, hsplit, List.mem_append] at hk
    rcases hk with hk | hk
    · have := hless k hk
      omega
    · exact hk
  have := stop_le_of_mem h.laid hlist' hke
  omega

end behind

/-- Whatever it is asked for, the search changes nothing but the shape of the
    tree. -/
theorem findspace_shape {m : Map} (h : Wf m) (start length : Nat) :
    ∃ t, (m.findspace start length).1 = { m with root := t } ∧ Wf { m with root := t } := by
  rw [Map.findspace]
  split
  case isTrue => exact ⟨m.root, rfl, h⟩
  case isFalse =>
  split
  case h_1 => exact ⟨m.root, rfl, h⟩
  case h_2 =>
  have hw := h.splay (max start m.minOffset)
  cases hs : m.entrySplay (max start m.minOffset) m.root with
  | nil =>
    rw [hs] at hw
    exact ⟨.nil, by simp, hw⟩
  | node l i c r =>
    rw [hs] at hw
    refine ⟨.node l i c r, ?_, hw⟩
    dsimp only
    split <;> rfl

/-- Exact first fit: the least place at or above an address, and none only when
    there is none. The search changes nothing but the shape of the tree. -/
theorem findspace_first_fit (m : Map) (h : Wf m) (start length : Nat) (hstart : start < 2 ^ 64)
    (hlen : 0 < length) (hlength : length < 2 ^ 64) :
    FirstFit m (max start m.minOffset) length (m.findspace start length).2 ∧
      (m.findspace start length).1 = { m with root := (m.findspace start length).1.root } ∧
      (m.findspace start length).1.list = m.list ∧ Wf (m.findspace start length).1 := by
  have hmin := h.limit.1
  have hin := h.tree.inorder
  rw [Map.findspace]
  have hst' : max start m.minOffset < 2 ^ 64 := by omega
  generalize max start m.minOffset = start' at hst'
  split
  case isTrue hbad =>
    refine ⟨fun a ha hf => ?_, rfl, rfl, h⟩
    have h1 := hf.nowrap
    have h2 := hf.inside
    rw [uadd_eq (by omega)] at hbad
    omega
  case isFalse hgood =>
  have hsum : start' + length < 2 ^ 64 ∧ start' + length ≤ m.maxOffset := by
    rw [uadd] at hgood
    omega
  have hleast : Fits m length start' → FirstFit m start' length (.found start') :=
    fun hf => ⟨⟨le_refl _, hf⟩, fun a ha => ha.1⟩
  split
  case h_1 hroot =>
    refine ⟨hleast ⟨hsum.1, hsum.2, ?_⟩, rfl, rfl, h⟩
    rw [← hin, hroot]
    simp
  case h_2 hroot =>
  have hw := h.splay start'
  dsimp only
  cases hs : m.entrySplay start' m.root with
  | nil => exact absurd hs (SplayTree.splay_ne_nil _ _ fun hnil => hroot hnil)
  | node l i c r =>
    rw [hs] at hw
    have hlist : m.list = l.toList ++ i :: r.toList := hw.tree.inorder.symm
    have hsplit := SplayTree.splay_splits m.adjFree
      (hin ▸ h.laid.sided start' : SplayTree.Sided (m.side start') m.root.toList) hs
    have hbefore : ∀ j ∈ l.toList, (m.entry j).stop ≤ start' := by
      intro j hj
      exact (side_eq_gt (h.laid.nonempty j (by simp [hlist, hj]))).mp (hsplit.1 j hj)
    have hafter : ∀ j ∈ r.toList, start' < (m.entry j).start :=
      fun j hj => side_eq_lt.mp (hsplit.2 j hj)
    have hi : i ∈ m.list := by simp [hlist]
    dsimp only
    rw [uadd_eq hsum.1]
    split
    case isTrue hfront =>
      -- The place is in front of the root.
      refine ⟨hleast ⟨hsum.1, hsum.2, fun j hj => ?_⟩, rfl, rfl, hw⟩
      rw [hlist, List.mem_append, List.mem_cons] at hj
      rcases hj with hj | hj | hj
      · exact .inr (hbefore j hj)
      · rw [hj]
        exact .inl hfront
      have hij := nextStart_le h.laid hlist hj
      have hne := stop_le_nextStart h.laid hlist
      have := h.laid.nonempty i hi
      omega
    case isFalse hfront =>
    refine ⟨?_, rfl, rfl, hw⟩
    have hnext : start' ≤ m.nextStart i := by
      rw [nextStart_split h.tree.nodup hlist]
      cases hr : r.toList with
      | nil => simp; omega
      | cons j post =>
        have := hafter j (by simp [hr])
        simp; omega
    exact findBehind_spec h hlist rfl hw.tree.maxOk.right hlen hnext (by omega)

/-- Two pages fit behind the second page and nowhere before. -/
theorem findspace_first_fit_sample :
    (sample.findspace 4096 8192).2 = .found 20480 ∧ FirstFit sample 4096 8192 (.found 20480) ∧
      Wf (sample.findspace 4096 8192).1 := by
  have h := findspace_first_fit sample sample_wf 4096 8192 (by decide) (by decide) (by decide)
  exact ⟨by decide, h.1, h.2.2.2⟩

end FreeBSDKern.VmMap
