import FreeBSDKern.Rman.Align
import FreeBSDKern.Rman.Release

/-!
# Reserving a Resource

A request is cut out of a free region, or it joins the sharers of a resource with
the bounds it asks for. The second pass over the list does not ask whether the
entry it shares is allocated. It need not: a free entry with these bounds would
have been taken in the first pass.

## Main definitions

* `inReach`: The entries that the first pass looks at.
* `ReserveOk`: The condition under which a request keeps the invariant.

## Theorems

* `findFree_some`: What the first pass finds has room.
* `allocated_of_findShared`: What the second pass finds is allocated.
* `reserveResourceBound_ok`: The invariant after a request.
-/

namespace FreeBSDKern.Rman

open Lib Function

/-- The entries that the first pass looks at. -/
def inReach (m : Manager) (q : Request) (s : Nat) : Bool :=
  q.last q.start ≤ (m.res s).rEnd ∧ (m.res s).rStart ≤ sub q.end' (sub q.count 1) ∧
    (m.res s).rStart ≤ ulongMax - q.amask

/-- Where a free entry is in reach, the request is for something, and it is not moved
    beyond the last word. -/
def ReserveOk (m : Manager) (q : Request) : Prop :=
  ∀ s ∈ m.rmList, m.allocated s = false → inReach m q s = true →
    1 ≤ q.count ∧ q.fits (m.res s).rEnd wordSize (max (m.res s).rStart q.start) = true

section Reserve

variable {m : Manager} {q : Request}

variable {s rstart x h : Nat} {nowait nowait' : Bool} {f : Flags}

theorem size_eq (hok : m.Core) (hs : s ∈ m.rmList) : add (sub (m.res s).rEnd (m.res s).rStart) 1 =
      ((m.res s).rEnd - (m.res s).rStart + 1) % wordSize := by
  rcases List.append_of_mem hs with ⟨pre, post, hlist⟩
  rw [sub_of_le (hok.lt_of_split hlist).2.1 (hok.word s hs)]
  rfl

/-- A size of the whole word counts as nothing. -/
theorem exact_of_mod {n c : Nat} (hle : n ≤ wordSize) (hc : 1 ≤ c) (h : n % wordSize = c) :
    n = c := by
  rcases Nat.lt_or_eq_of_le hle with hlt | heq
  · rwa [Nat.mod_eq_of_lt hlt] at h
  · rw [heq, Nat.mod_self] at h
    omega

/-! ## The first pass -/

/-- A truncated region with room for the request. -/
theorem room {y rEnd rend count : Nat} (hend : rEnd < wordSize) (htrunc : rend ≤ rEnd)
    (hle : ¬y > rend) (hroom : add (sub rend y) 1 ≥ count) : y + count ≤ rEnd + 1 := by
  have hmod : add (sub rend y) 1 ≤ rend - y + 1 := by
    rw [sub_of_le (by omega) (by omega)]
    exact Nat.mod_le _ _
  omega

/-- What the first pass finds is free and has room for the request. -/
theorem findFree_some (hok : m.Core) (hw : q.Words) (hcond : ReserveOk m q) :
    ∀ {l : List Nat}, (∀ i ∈ l, i ∈ m.rmList ∧ q.last q.start ≤ (m.res i).rEnd) →
      findFree m q l = some (some (s, rstart)) →
      s ∈ m.rmList ∧ m.allocated s = false ∧ 1 ≤ q.count ∧ (m.res s).rStart ≤ rstart ∧
        rstart + q.count ≤ (m.res s).rEnd + 1 := by
  intro l
  induction l with
  | nil =>
    intro _ hfind
    cases hfind
  | cons i rest ih =>
    intro hl hfind
    have hrest := ih (fun j hj => hl j (List.mem_cons_of_mem i hj))
    rcases hl i List.mem_cons_self with ⟨hin, hreach⟩
    rw [findFree] at hfind
    dsimp only at hfind
    split at hfind
    case isTrue =>
      cases hfind
    case isFalse hend =>
    split at hfind
    case isTrue =>
      cases hfind
    case isFalse hmask =>
    split at hfind
    case isTrue => exact hrest hfind
    case isFalse hfree =>
    rw [Bool.not_eq_true] at hfree
    rcases hcond i hin hfree
      (decide_eq_true ⟨hreach, Nat.le_of_not_gt hend, Nat.le_of_not_gt hmask⟩) with
      ⟨hcount, hfits⟩
    split at hfind
    case h_1 => cases hfind
    case h_2 y hloop =>
    have hge := Request.adjustLoop_ge hw hfits hloop
    have hword := hok.word i hin
    split at hfind
    case isTrue => exact hrest hfind
    case isFalse hle =>
    split at hfind
    case isFalse => exact hrest hfind
    case isTrue hroom =>
    simp only [Option.some.injEq, Prod.mk.injEq] at hfind
    rcases hfind with ⟨rfl, rfl⟩
    refine ⟨hin, hfree, hcount, ?_, ?_⟩
    · exact le_trans (Nat.le_max_left _ _) hge.1
    · exact room hword (Nat.min_le_left _ _) hle hroom

/-! ## Cutting a free region -/

theorem alloc_setStart (r : Resource) (hs : s ≠ m.nextRes) :
    (m.alloc r).1.setStart s x = ((m.setStart s x).alloc r).1 := by
  simp only [Manager.alloc, Manager.setStart, Manager.put]
  rw [update_of_ne hs, update_comm hs]

theorem alloc_setEnd (r : Resource) (hs : s ≠ m.nextRes) :
    (m.alloc r).1.setEnd s x = ((m.setEnd s x).alloc r).1 := by
  simp only [Manager.alloc, Manager.setEnd, Manager.put]
  rw [update_of_ne hs, update_comm hs]

/-- A region is cut into three, the middle for the request. -/
theorem split_middle (hok : m.Core) {pre post : List Nat} {a b : Nat}
    (hlist : m.rmList = pre ++ s :: post) (hun : Unshared m s) (f : Flags)
    (ha : (m.res s).rStart < a) (hab : a ≤ b) (hb : b < (m.res s).rEnd) :
    let back : Resource := ⟨b + 1, (m.res s).rEnd, (m.res s).rFlags, none⟩
    Change m (((((m.alloc ⟨a, b, f, none⟩).1.alloc back).1.setEnd s (a - 1)).insertAfter s
        m.nextRes).insertAfter m.nextRes (m.nextRes + 1)) pre [s]
      [(s, { m.res s with rEnd := a - 1 }), (m.nextRes, ⟨a, b, f, none⟩), (m.nextRes + 1, back)]
      post ∅ := by
  intro back
  have hnodup := hok.nodup
  rw [hlist] at hnodup
  have hsin : s ∈ m.rmList := by simp [hlist]
  have hfresh := hok.fresh s hsin
  have hne : s ≠ m.nextRes := by omega
  have hne' : s ≠ m.nextRes + 1 := by omega
  have hword := hok.word s hsin
  have hout : m.nextRes ∉ pre ++ [s] := by
    intro hin
    exact absurd (hok.fresh m.nextRes (by rw [hlist]; simp at hin ⊢; tauto)) (lt_irrefl _)
  exact
    { before := by simp [hlist]
      after := by
        show insertAfter (insertAfter m.rmList s m.nextRes) m.nextRes (m.nextRes + 1) = _
        rw [hlist, insertAfter_split s m.nextRes pre post (notMem_front hnodup)]
        rw [show pre ++ s :: m.nextRes :: post = (pre ++ [s]) ++ m.nextRes :: post by simp,
          insertAfter_split m.nextRes (m.nextRes + 1) (pre ++ [s]) post hout]
        simp
      entries := by
        simp [Manager.alloc, Manager.setEnd, Manager.put, Manager.insertAfter, hne, hne', hne.symm,
          hne'.symm]
      frame := by
        intro i hi hlt
        have hin : i ≠ m.nextRes := by omega
        have hin' : i ≠ m.nextRes + 1 := by omega
        rw [List.mem_singleton] at hi
        simp [Manager.alloc, Manager.setEnd, Manager.put, Manager.insertAfter, hi, hin, hin']
      next := Nat.le_add_right m.nextRes 2
      heads := rfl
      nextHead := rfl
      nodup := by simp [hne, hne']
      source := by
        simp only [List.forall_mem_cons]
        exact ⟨.inl (List.mem_singleton_self s),
          .inr ⟨le_rfl, Nat.lt_add_of_pos_right Nat.two_pos⟩,
          .inr ⟨Nat.le_succ _, Nat.lt_succ_self _⟩, by simp⟩
      unshared := by simpa using hun
      plain := by simp [back, hok.sharehead_of_unshared hsin hun]
      word := by
        simp only [List.forall_mem_cons]
        exact ⟨by omega, by omega, hword, by simp⟩
      ranges := by
        simp [back]
        omega
      extent := by
        ext x
        simp [back, Manager.range]
        omega
      left := by simp
      right := by simp }

theorem last_eq (hcount : 1 ≤ q.count) (hroom : rstart + q.count ≤ wordSize) :
    q.last rstart = rstart + q.count - 1 := by
  by_cases hlt : rstart + q.count < wordSize
  · rw [Request.last, add_of_lt hlt, sub_of_le (by omega) hlt]
  have heq : rstart + q.count = wordSize := by omega
  rw [Request.last, add, heq]
  decide

/-- A region cut into pieces, the one from `a` to `b` for a request. -/
def pieces (first last a b : Nat) : List Marked :=
  (if first < a then [((first, a - 1), false)] else []) ++
    ((a, b), true) :: if b < last then [((b + 1, last), false)] else []

/-- Without memory nothing is cut. -/
theorem carve_none (h : (carve m q s rstart nowait nowait').2 = none) :
    (carve m q s rstart nowait nowait').1 = m := by
  unfold carve at h ⊢
  dsimp only at h ⊢
  split at h
  case isTrue => exact absurd h (Option.some_ne_none _)
  case isFalse hsize =>
  rw [if_neg hsize]
  split at h
  case isTrue hmem => rw [if_pos hmem]
  case isFalse hmem =>
  rw [if_neg hmem]
  split at h
  case isTrue hmid =>
    rw [if_pos hmid]
    split at h
    case isTrue hmem' => rw [if_pos hmem']
    case isFalse => exact absurd h (Option.some_ne_none _)
  case isFalse =>
    split at h
    case isTrue => exact absurd h (Option.some_ne_none _)
    case isFalse => exact absurd h (Option.some_ne_none _)

/-- A free region becomes its pieces, the one for the request allocated. -/
theorem carve_change (hok : m.Core) (hs : s ∈ m.rmList) (hfree : m.allocated s = false)
    (hcount : 1 ≤ q.count) (hcountW : q.count < wordSize) (hstart : (m.res s).rStart ≤ rstart)
    (hroom : rstart + q.count ≤ (m.res s).rEnd + 1) {i : Nat}
    (hi : (carve m q s rstart nowait nowait').2 = some i) :
    ∃ pre es post, Change m (carve m q s rstart nowait nowait').1 pre [s] es post ∅ ∧
      es.map (fun e => mark e.2) =
        pieces (m.res s).rStart (m.res s).rEnd rstart (rstart + q.count - 1) ∧
      (∀ e ∈ es, has e.2.rFlags rfAllocated = true ↔ e.1 = i) ∧ i ∈ es.map Prod.fst := by
  rcases List.append_of_mem hs with ⟨pre, post, hlist⟩
  have hun := hok.unshared_of_free hfree
  have hword := hok.word s hs
  have hself := (hok.lt_of_split hlist).2.1
  have hne : s ≠ m.nextRes := ne_of_lt (hok.fresh s hs)
  have hlast : q.last rstart = rstart + q.count - 1 := last_eq hcount (by omega)
  have hnew : has q.newFlags rfAllocated = true := has_or_self _ (by decide)
  have hold : has (m.res s).rFlags rfAllocated = false := hfree
  unfold carve at hi ⊢
  dsimp only at hi ⊢
  rw [size_eq hok hs] at hi ⊢
  split at hi
  case isTrue hsize =>
    rw [if_pos hsize]
    rw [Option.some.injEq] at hi
    subst hi
    have hexact := exact_of_mod (by omega) hcount hsize
    refine ⟨pre, _, post, set_flags hok hlist hun _, ?_, ?_, List.mem_singleton_self s⟩
    · have hfirst : rstart = (m.res s).rStart := by omega
      have hend : (m.res s).rStart + q.count - 1 = (m.res s).rEnd := by omega
      rw [hfirst, hend]
      simp only [pieces, lt_irrefl, if_false, List.map_cons, List.map_nil, mark,
        hnew, List.nil_append]
    · simp [hnew]
  case isFalse hsize =>
  rw [if_neg hsize]
  -- The request is not the whole region, not even if that is all there is.
  have hless : q.count < (m.res s).rEnd - (m.res s).rStart + 1 := by
    by_contra hle
    have heq : (m.res s).rEnd - (m.res s).rStart + 1 = q.count := by omega
    rw [heq, Nat.mod_eq_of_lt hcountW] at hsize
    exact hsize rfl
  split at hi
  case isTrue => exact absurd hi.symm (Option.some_ne_none _)
  case isFalse hmem =>
  rw [if_neg hmem]
  rw [hlast] at hi ⊢
  split at hi
  case isTrue hmid =>
    rw [if_pos hmid]
    split at hi
    case isTrue => exact absurd hi.symm (Option.some_ne_none _)
    case isFalse hmem' =>
    rw [if_neg hmem']
    rw [Option.some.injEq] at hi
    have hi' : i = m.nextRes := hi.symm
    subst hi'
    rw [add_of_lt (by omega), sub_of_le (by omega) (by omega)]
    refine ⟨pre, _, post,
      split_middle hok hlist hun q.newFlags hmid.1 (by omega) hmid.2, ?_, ?_, ?_⟩
    · rw [pieces, if_pos hmid.1, if_pos hmid.2]
      simp only [List.map_cons, List.map_nil, mark, hnew, hold, List.singleton_append]
    · simp [hnew, hold, hne]
    · exact List.mem_cons_of_mem s List.mem_cons_self
  case isFalse hmid =>
  rw [if_neg hmid]
  split at hi
  case isTrue heq =>
    rw [if_pos heq]
    rw [Option.some.injEq] at hi
    have hi' : i = m.nextRes := hi.symm
    subst hi'
    rw [add_of_lt (by omega)]
    have hc := split_front hok hlist hun q.newFlags (x := rstart + q.count - 1)
      (by omega) (by omega)
    rw [heq, ← alloc_setStart _ hne] at hc
    refine ⟨pre, _, post, hc, ?_, ?_, List.mem_cons_self⟩
    · rw [pieces, if_neg (by omega), if_pos (by omega)]
      simp only [List.map_cons, List.map_nil, mark, hnew, hold, List.nil_append]
    · simp [hnew, hold, hne]
  case isFalse hne' =>
  rw [if_neg hne']
  rw [Option.some.injEq] at hi
  have hi' : i = m.nextRes := hi.symm
  subst hi'
  rw [sub_of_le (by omega) (by omega)]
  have hc := split_back hok hlist hun q.newFlags (x := rstart - 1) (by omega)
    (by omega)
  have hfirst : rstart - 1 + 1 = rstart := by omega
  have hend : rstart + q.count - 1 = (m.res s).rEnd := by omega
  rw [hfirst, ← hend, ← alloc_setEnd _ hne] at hc
  refine ⟨pre, _, post, hc, ?_, ?_, List.mem_cons_of_mem s List.mem_cons_self⟩
  · rw [pieces, if_pos (by omega), if_neg (by omega)]
    simp only [List.map_cons, List.map_nil, mark, hnew, hold, List.singleton_append]
  · simp [hnew, hold, hne]

/-- Cutting the request out of a free region covers the same. -/
theorem carve_ok (hok : m.Ok) (hs : s ∈ m.rmList) (hfree : m.allocated s = false)
    (hcount : 1 ≤ q.count) (hcountW : q.count < wordSize) (hstart : (m.res s).rStart ≤ rstart)
    (hroom : rstart + q.count ≤ (m.res s).rEnd + 1) (nowait nowait' : Bool) :
    (carve m q s rstart nowait nowait').1.Ok ∧
      extent (carve m q s rstart nowait nowait').1.ranges = extent m.ranges := by
  cases hi : (carve m q s rstart nowait nowait').2 with
  | none =>
    rw [carve_none hi]
    exact ⟨hok, rfl⟩
  | some i =>
    rcases carve_change hok.toCore hs hfree hcount hcountW hstart hroom hi with
      ⟨pre, es, post, hc, -⟩
    exact hok.keep hc

/-! ## The second pass -/

/-- An entry that matches the request exactly. -/
structure Exact (m : Manager) (q : Request) (s : Nat) : Prop where
  start : q.start ≤ (m.res s).rStart
  order : (m.res s).rStart ≤ (m.res s).rEnd
  word : (m.res s).rEnd < wordSize
  size : add (sub (m.res s).rEnd (m.res s).rStart) 1 = q.count
  last : q.last (m.res s).rStart = (m.res s).rEnd
  limit : (m.res s).rStart ≤ sub q.end' (sub q.count 1)
  mask : (m.res s).rStart ≤ ulongMax - q.amask
  aligned : (m.res s).rStart &&& q.amask = 0
  bounded : ((m.res s).rStart ^^^ (m.res s).rEnd) &&& q.bmask = 0

theorem exact_of_sharable (hok : m.Core) (hw : q.Words) (hs : s ∈ m.rmList)
    (hshare : sharable m q s = true) (hend : (m.res s).rEnd ≤ q.end') : Exact m q s := by
  rcases List.append_of_mem hs with ⟨pre, post, hlist⟩
  have hself := (hok.lt_of_split hlist).2.1
  have hword := hok.word s hs
  rcases of_decide_eq_true hshare with ⟨-, hstart, hsize, halign, hbound⟩
  have hmask := (Request.add_amask_lt (lt_of_le_of_lt hself hword) halign).1
  have hmax := ulongMax_succ
  have hcount : ((m.res s).rEnd - (m.res s).rStart + 1) % wordSize = q.count := by
    rw [← size_eq hok hs]
    exact hsize
  have hrest : q.last (m.res s).rStart = (m.res s).rEnd ∧
      (m.res s).rStart ≤ sub q.end' (sub q.count 1) := by
    by_cases hall : (m.res s).rEnd - (m.res s).rStart + 1 < wordSize
    · rw [Nat.mod_eq_of_lt hall] at hcount
      have hsub : sub q.count 1 = (m.res s).rEnd - (m.res s).rStart := by
        rw [sub_of_le (by omega) hw.count]
        omega
      rw [hsub, sub_of_le (by omega) hw.end', last_eq (by omega) (by omega)]
      omega
    -- The entry is all there is, and its size is no word.
    have hzero : (m.res s).rStart = 0 := by omega
    have hall' : (m.res s).rEnd = ulongMax := by omega
    rw [hzero, hall', show ulongMax - 0 + 1 = wordSize from hmax, Nat.mod_self] at hcount
    rw [hzero, hall', Request.last, ← hcount]
    exact ⟨by decide, zero_le⟩
  exact ⟨hstart, hself, hword, hsize, hrest.1, hrest.2, by omega, halign, hbound⟩

/-- The first pass does not pass over a free entry with the bounds of the request. -/
theorem findFree_exact (he : Exact m q s) (hfree : m.allocated s = false)
    (hend : (m.res s).rEnd ≤ q.end') :
    ∀ {l : List Nat}, s ∈ l → l.Pairwise (fun i j => (m.res i).rStart ≤ (m.res j).rStart) →
      findFree m q l ≠ some none := by
  intro l
  induction l with
  | nil =>
    intro hs
    exact absurd hs List.not_mem_nil
  | cons i rest ih =>
    intro hs hsorted
    rcases List.pairwise_cons.mp hsorted with ⟨hfirst, htail⟩
    have hle : (m.res i).rStart ≤ (m.res s).rStart := by
      rcases List.mem_cons.mp hs with heq | hs
      · rw [heq]
      · exact hfirst s hs
    rw [findFree]
    dsimp only
    -- The list is sorted, so the search does not end before the entry.
    rw [if_neg (Nat.not_lt.mpr (le_trans hle he.limit)),
      if_neg (Nat.not_lt.mpr (le_trans hle he.mask))]
    by_cases heq : i = s
    · rw [heq, if_neg (by simp [hfree])]
      have hloop : q.adjustLoop (m.res s).rEnd wordSize (max (m.res s).rStart q.start) =
          some (m.res s).rStart := by
        have hcross : ((m.res s).rStart ^^^ q.last (m.res s).rStart) &&& q.bmask = 0 := by
          rw [he.last]
          exact he.bounded
        rw [Nat.max_eq_left he.start]
        exact Request.adjustLoop_aligned (lt_of_le_of_lt he.order he.word) he.aligned hcross
      have htrunc : min (m.res s).rEnd (max (q.last (m.res s).rStart) q.end') = (m.res s).rEnd :=
        Nat.min_eq_left (le_trans hend (Nat.le_max_right _ _))
      rw [hloop]
      dsimp only
      rw [htrunc, if_neg (Nat.not_lt.mpr he.order), if_pos (le_of_eq he.size.symm)]
      simp only [ne_eq, Option.some.injEq, reduceCtorEq, not_false_eq_true]
    have hrest := ih ((List.mem_cons.mp hs).resolve_left (Ne.symm heq)) htail
    split
    case isTrue => exact hrest
    case isFalse =>
    split
    case h_1 => simp only [ne_eq, reduceCtorEq, not_false_eq_true]
    case h_2 =>
    split
    case isTrue => exact hrest
    case isFalse =>
    split
    case isTrue =>
      simp only [ne_eq, Option.some.injEq, reduceCtorEq, not_false_eq_true]
    case isFalse => exact hrest

/-! ## Sharing -/

/-- A sharing list is set up, with the resource alone on it. -/
def found (m : Manager) (s : Nat) : Manager :=
  { m.put s { m.res s with
      rFlags := (m.res s).rFlags ||| rfFirstshare, rSharehead := some m.nextHead } with
    heads := update m.heads m.nextHead [s], nextHead := m.nextHead + 1 }

/-- A sharer with the bounds of `s` is added to a sharing list. -/
def join (m : Manager) (s h : Nat) (f : Flags) : Manager :=
  { (m.alloc ⟨(m.res s).rStart, (m.res s).rEnd, f, some h⟩).1 with
    heads := update m.heads h (m.nextRes :: m.heads h) }

theorem found_ok (hok : m.Core) (hs : s ∈ m.rmList) (hnone : (m.res s).rSharehead = none)
    (halloc : m.allocated s = true) (hshare : has (m.res s).rFlags rfShareable = true) :
    (found m s).Core ∧ (found m s).ranges = m.ranges ∧ Group (found m s) m.nextHead s := by
  have hun := hok.unshared_of_none hnone
  have hres : ∀ i, i ≠ s → (found m s).res i = m.res i := fun i hi => update_of_ne hi _ _
  have hres' : (found m s).res s = { m.res s with
      rFlags := (m.res s).rFlags ||| rfFirstshare, rSharehead := some m.nextHead } :=
    update_self _ _ _
  have hself : (found m s).heads m.nextHead = [s] := update_self _ _ _
  have hother : ∀ h, h ≠ m.nextHead → (found m s).heads h = m.heads h :=
    fun h heq => update_of_ne heq _ _
  have hrange : ∀ i, (found m s).range i = m.range i := range_put rfl
  have hranges : (found m s).ranges = m.ranges := List.map_congr_left (fun i _ => hrange i)
  have hgroup : Group (found m s) m.nextHead s := by
    constructor
    case listed => exact hs
    case mem => simp [hself]
    case nodup => simp [hself]
    all_goals
      rw [hself]
      simp only [List.mem_singleton, forall_eq, iff_true]
    case fresh => exact hok.fresh s hs
    case head => rw [hres']
    case allocated =>
      rw [Manager.allocated, hres']
      exact (has_or _ (by decide)).trans halloc
    case shareable =>
      rw [hres']
      exact (has_or _ (by decide)).trans hshare
    case unique => exact hs
    case first =>
      rw [hres']
      exact has_or_self _ (by decide)
  refine ⟨⟨hok.nodup, hok.fresh, ?_, ?_, ?_, ?_, ?_⟩, hranges, hgroup⟩
  · rw [hranges]
    exact hok.ranges
  · intro i hi
    have hend : ((found m s).res i).rEnd = (m.res i).rEnd := congrArg Prod.snd (hrange i)
    rw [hend]
    exact hok.word i hi
  · intro h
    by_cases heq : h = m.nextHead
    · rw [heq]
      exact .inr ⟨s, hgroup⟩
    rcases hok.groups h with hnil | ⟨lead, hg⟩
    · exact .inl ((hother h heq).trans hnil)
    · refine .inr ⟨lead, hg.frame (hother h heq) le_rfl ?_ (fun _ _ => Iff.rfl)⟩
      exact fun i hi => hres i (fun his => hun h (his ▸ hi))
  · intro i hi h hhead
    by_cases his : i = s
    · rw [his, hres', Option.some.injEq] at hhead
      rw [his, ← hhead, hself]
      exact List.mem_singleton_self s
    rw [hres i his] at hhead
    have hin := hok.shared i hi h hhead
    by_cases heq : h = m.nextHead
    · rw [heq, hok.freshHead _ le_rfl] at hin
      exact absurd hin List.not_mem_nil
    · rw [hother h heq]
      exact hin
  intro h hle
  have hle' : m.nextHead + 1 ≤ h := hle
  exact (hother h (by omega)).trans (hok.freshHead h (by omega))

theorem join_res {i : Nat} (hi : i < m.nextRes) : (join m s h f).res i = m.res i :=
  update_of_ne (ne_of_lt hi) _ _

theorem join_res_new :
    (join m s h f).res m.nextRes = ⟨(m.res s).rStart, (m.res s).rEnd, f, some h⟩ :=
  update_self _ _ _

theorem join_heads_self : (join m s h f).heads h = m.nextRes :: m.heads h :=
  update_self _ _ _

theorem join_heads {h' : Nat} (hne : h' ≠ h) : (join m s h f).heads h' = m.heads h' :=
  update_of_ne hne _ _

theorem join_ok (hok : m.Core) (hg : Group m h s) (halloc : has f rfAllocated = true)
    (hshare : has f rfShareable = true) (hfirst : has f rfFirstshare = false) :
    (join m s h f).Core ∧ (join m s h f).ranges = m.ranges := by
  have hrange : ∀ i, i < m.nextRes → (join m s h f).range i = m.range i := by
    intro i hi
    rw [Manager.range, join_res hi]
    rfl
  have hlead : s < m.nextRes := hg.fresh s hg.mem
  have hranges : (join m s h f).ranges = m.ranges :=
    List.map_congr_left (fun i hi => hrange i (hok.fresh i hi))
  have hgroup : Group (join m s h f) h s := by
    constructor
    case listed => exact hg.listed
    case mem =>
      rw [join_heads_self]
      exact List.mem_cons_of_mem _ hg.mem
    case nodup =>
      rw [join_heads_self]
      exact List.nodup_cons.mpr
        ⟨fun hin => lt_irrefl _ (hg.fresh _ hin), hg.nodup⟩
    all_goals
      rw [join_heads_self]
      refine List.forall_mem_cons.mpr ⟨?_, fun i hi => ?_⟩
    case fresh.refine_1 => exact Nat.lt_succ_self _
    case fresh.refine_2 => exact Nat.lt_succ_of_lt (hg.fresh i hi)
    case head.refine_1 => rw [join_res_new]
    case head.refine_2 =>
      rw [join_res (hg.fresh i hi)]
      exact hg.head i hi
    case allocated.refine_1 =>
      rw [Manager.allocated, join_res_new]
      exact halloc
    case allocated.refine_2 =>
      rw [Manager.allocated, join_res (hg.fresh i hi)]
      exact hg.allocated i hi
    case shareable.refine_1 =>
      rw [join_res_new]
      exact hshare
    case shareable.refine_2 =>
      rw [join_res (hg.fresh i hi)]
      exact hg.shareable i hi
    case range.refine_1 =>
      rw [Manager.range, join_res_new, hrange s hlead]
      rfl
    case range.refine_2 =>
      rw [hrange i (hg.fresh i hi), hrange s hlead]
      exact hg.range i hi
    case unique.refine_1 =>
      -- The new sharer is not in the list of the manager.
      exact ⟨fun hin => absurd (hok.fresh _ hin) (lt_irrefl _), fun heq => absurd heq (by omega)⟩
    case unique.refine_2 => exact hg.unique i hi
    case first.refine_1 =>
      rw [join_res_new]
      exact ⟨fun hin => absurd (hin.symm.trans hfirst) (by decide), fun heq => absurd heq (by omega)⟩
    case first.refine_2 =>
      rw [join_res (hg.fresh i hi)]
      exact hg.first i hi
  refine ⟨⟨hok.nodup, fun i hi => Nat.lt_succ_of_lt (hok.fresh i hi), ?_, ?_, ?_, ?_, ?_⟩, hranges⟩
  · rw [hranges]
    exact hok.ranges
  · intro i hi
    rw [join_res (hok.fresh i hi)]
    exact hok.word i hi
  · intro h'
    by_cases heq : h' = h
    · rw [heq]
      exact .inr ⟨s, hgroup⟩
    rcases hok.groups h' with hnil | ⟨lead, hg'⟩
    · exact .inl ((join_heads heq).trans hnil)
    · refine .inr ⟨lead, hg'.frame (join_heads heq) (Nat.le_succ _) ?_ (fun _ _ => Iff.rfl)⟩
      exact fun i hi => join_res (hg'.fresh i hi)
  · intro i hi h' hhead
    rw [join_res (hok.fresh i hi)] at hhead
    have hin := hok.shared i hi h' hhead
    by_cases heq : h' = h
    · rw [heq, join_heads_self]
      exact List.mem_cons_of_mem _ (heq ▸ hin)
    · rw [join_heads heq]
      exact hin
  intro h' hle
  have hnil := hok.freshHead h' hle
  by_cases heq : h' = h
  · have hmem := hg.mem
    rw [← heq, hnil] at hmem
    exact absurd hmem List.not_mem_nil
  · exact (join_heads heq).trans hnil

theorem newFlags_has (q : Request) : has q.newFlags rfAllocated = true ∧
    has q.newFlags rfShareable = has q.flags rfShareable ∧ has q.newFlags rfFirstshare = false :=
  ⟨has_or_self _ (by decide), (has_or _ (by decide)).trans (has_andNot _ (by decide)),
    (has_or _ (by decide)).trans (has_andNot_self _ _)⟩

theorem share_join (hhead : (m.res s).rSharehead = some h) (nowait' : Bool) :
    (share m q s true nowait').1 = join m s h q.newFlags := by
  simp only [share, hhead]
  rfl

theorem share_found (hhead : (m.res s).rSharehead = none) :
    (share m q s true true).1 = join (found m s) s m.nextHead q.newFlags := by
  simp only [share, hhead, join, found, Manager.alloc, Manager.put, update_self, update_idem]
  rfl

/-- A group of at least one gets another sharer. -/
theorem join_two (hok : m.Core) (hg : Group m h s)
    (htwo : ∀ h', h' ≠ h → m.heads h' = [] ∨ 2 ≤ (m.heads h').length)
    (halloc : has f rfAllocated = true) (hshare : has f rfShareable = true)
    (hfirst : has f rfFirstshare = false) :
    (join m s h f).Ok ∧ (join m s h f).ranges = m.ranges := by
  rcases join_ok hok hg halloc hshare hfirst with ⟨hcore, hranges⟩
  refine ⟨⟨hcore, ?_⟩, hranges⟩
  intro h'
  by_cases heq : h' = h
  · have hpos := List.length_pos_of_mem hg.mem
    rw [heq, join_heads_self, List.length_cons]
    exact .inr (by omega)
  · rw [join_heads heq]
    exact htwo h' heq

/-- Without memory nothing is shared. -/
theorem share_none (h : (share m q s nowait nowait').2 = none) :
    (share m q s nowait nowait').1 = m := by
  unfold share at h ⊢
  split at h
  case isTrue hmem => rw [if_pos hmem]
  case isFalse hmem =>
  rw [if_neg hmem]
  dsimp only at h ⊢
  cases hhead : (m.res s).rSharehead with
  | some h' =>
    rw [hhead] at h
    exact absurd h (Option.some_ne_none _)
  | none =>
    rw [hhead] at h
    dsimp only at h ⊢
    split at h
    case isTrue hmem' => rw [if_pos hmem']
    case isFalse => exact absurd h (Option.some_ne_none _)

/-- A new sharer does not change what the manager covers. -/
theorem share_ok (hok : m.Ok) (hs : s ∈ m.rmList) (halloc : m.allocated s = true)
    (hshare : has (m.res s).rFlags rfShareable = true) (hq : has q.flags rfShareable = true)
    (nowait nowait' : Bool) :
    (share m q s nowait nowait').1.Ok ∧ (share m q s nowait nowait').1.ranges = m.ranges := by
  rcases newFlags_has q with ⟨hnew, hnew', hnew''⟩
  cases nowait with
  | false => exact ⟨hok, rfl⟩
  | true =>
    cases hhead : (m.res s).rSharehead with
    | some h =>
      have hin := hok.shared s hs h hhead
      rcases hok.toCore.group hin with ⟨lead, hg⟩
      have hlead : s = lead := (hg.unique s hin).mp hs
      rw [← hlead] at hg
      rw [share_join hhead]
      exact join_two hok.toCore hg (fun h' _ => hok.two h') hnew (hnew'.trans hq) hnew''
    | none =>
      cases nowait' with
      | false =>
        simp only [share, hhead]
        exact ⟨hok, rfl⟩
      | true =>
        rcases found_ok hok.toCore hs hhead halloc hshare with ⟨hcore, hranges, hg⟩
        rw [share_found hhead, ← hranges]
        refine join_two hcore hg ?_ hnew (hnew'.trans hq) hnew''
        intro h' heq
        have hother : (found m s).heads h' = m.heads h' := update_of_ne heq _ _
        rw [hother]
        exact hok.two h'

/-! ## The request -/

/-- Once an entry is late enough, those behind it are too. -/
theorem le_of_mem_dropWhile {e : Nat → Nat} {i : Nat} :
    ∀ {l : List Nat}, l.Pairwise (fun i j => e i ≤ e j) → i ∈ l.dropWhile (fun s => e s < x) →
      x ≤ e i := by
  intro l
  induction l with
  | nil =>
    intro _ hi
    exact absurd hi List.not_mem_nil
  | cons j rest ih =>
    intro hsorted hi
    rcases List.pairwise_cons.mp hsorted with ⟨hfirst, htail⟩
    rw [List.dropWhile_cons] at hi
    split at hi
    case isTrue => exact ih htail hi
    case isFalse hj =>
    have hle : x ≤ e j := not_lt.mp (fun hlt => hj (decide_eq_true hlt))
    rcases List.mem_cons.mp hi with rfl | hi
    · exact hle
    · exact le_trans hle (hfirst i hi)

theorem Manager.Core.sorted (hok : m.Core) :
    m.rmList.Pairwise (fun i j => (m.res i).rStart ≤ (m.res j).rStart) ∧
      m.rmList.Pairwise (fun i j => (m.res i).rEnd ≤ (m.res j).rEnd) := by
  have horder := hok.ranges.order
  rw [Manager.ranges, List.pairwise_map] at horder
  have hself : ∀ i ∈ m.rmList, (m.res i).rStart ≤ (m.res i).rEnd :=
    fun i hi => hok.ranges.nonempty _ (List.mem_map_of_mem hi)
  constructor
  · refine horder.imp_of_mem (fun {i j} hi _ hlt => ?_)
    have := hself i hi
    have hlt' : (m.res i).rEnd < (m.res j).rStart := hlt
    omega
  refine horder.imp_of_mem (fun {i j} _ hj hlt => ?_)
  have := hself j hj
  have hlt' : (m.res i).rEnd < (m.res j).rStart := hlt
  omega

/-- What the second pass finds is allocated, since the first found nothing. -/
theorem allocated_of_findShared (hok : m.Core) (hw : q.Words) {l : List Nat}
    (hsub : l.Sublist m.rmList) (hnone : findFree m q l = some none)
    (hfind : findShared m q l = some s) :
    s ∈ m.rmList ∧ m.allocated s = true ∧ shareType (m.res s).rFlags = shareType q.flags := by
  have hmem := List.mem_of_find?_eq_some hfind
  have hshare : sharable m q s = true := List.find?_some hfind
  have hs : s ∈ l := List.takeWhile_sublist _ |>.subset hmem
  have hend : (m.res s).rEnd ≤ q.end' := by
    have hpred := List.mem_takeWhile_imp hmem
    exact of_decide_eq_true hpred
  refine ⟨hsub.subset hs, ?_, (of_decide_eq_true hshare).1⟩
  cases halloc : m.allocated s with
  | true => rfl
  | false =>
    exact absurd hnone (findFree_exact (exact_of_sharable hok hw (hsub.subset hs) hshare hend)
      halloc hend hs (hok.sorted.1.sublist hsub))

theorem has_of_shareType {g : Flags} (h : shareType f = shareType g) :
    has f rfShareable = has g rfShareable := by
  have hand : ∀ x : Flags, x &&& rfShareable = shareType x &&& rfShareable := by
    intro x
    rw [shareType, BitVec.and_assoc]
    rfl
  rw [has, has, hand f, hand g, h]

/-- What a request that is not moved beyond the last word can do: nothing, or it is cut out
    of a free entry with room for it, or it shares an entry that is allocated. -/
theorem reserve_cases (hok : m.Core) (hw : q.Words) (hcond : ReserveOk m q)
    {r : Manager × Option Nat} (h : reserveResourceBound m q nowait nowait' = some r) :
    r = (m, none) ∨
    (∃ s rstart, s ∈ m.rmList ∧ m.allocated s = false ∧ 1 ≤ q.count ∧ (m.res s).rStart ≤ rstart ∧
      rstart + q.count ≤ (m.res s).rEnd + 1 ∧ r = carve m q s rstart nowait nowait') ∨
    ∃ s, s ∈ m.rmList ∧ m.allocated s = true ∧ has (m.res s).rFlags rfShareable = true ∧
      has q.flags rfShareable = true ∧ r = share m q s nowait nowait' := by
  have hsub : (m.rmList.dropWhile (fun s => (m.res s).rEnd < q.last q.start)).Sublist m.rmList :=
    List.dropWhile_sublist _
  have hl : ∀ i ∈ m.rmList.dropWhile (fun s => (m.res s).rEnd < q.last q.start),
      i ∈ m.rmList ∧ q.last q.start ≤ (m.res i).rEnd :=
    fun i hi => ⟨hsub.subset hi, le_of_mem_dropWhile hok.sorted.2 hi⟩
  unfold reserveResourceBound at h
  generalize m.rmList.dropWhile (fun s => (m.res s).rEnd < q.last q.start) = l at h hsub hl
  split at h
  case h_1 => exact .inl (Option.some.inj h).symm
  case h_2 =>
  cases hfind : findFree m q l with
  | none =>
    rw [hfind] at h
    cases h
  | some found =>
    rw [hfind] at h
    cases found with
    | some place =>
      rcases findFree_some hok hw hcond hl hfind with ⟨hs, hfree, hcount, hstart, hroom⟩
      exact .inr (.inl ⟨place.1, place.2, hs, hfree, hcount, hstart, hroom,
        (Option.some.inj h).symm⟩)
    | none =>
      dsimp only at h
      split at h
      case isFalse => exact .inl (Option.some.inj h).symm
      case isTrue hq =>
      cases hfind' : findShared m q l with
      | none =>
        rw [hfind'] at h
        exact .inl (Option.some.inj h).symm
      | some s =>
        rw [hfind'] at h
        rcases allocated_of_findShared hok hw hsub hfind hfind' with
          ⟨hs, halloc, htype⟩
        exact .inr (.inr ⟨s, hs, halloc, (has_of_shareType htype).trans hq, hq,
          (Option.some.inj h).symm⟩)

/-- A request that is not moved beyond the last word keeps the invariant, and what the
    manager covers. -/
theorem reserveResourceBound_ok (hok : m.Ok) (hw : q.Words) (hcond : ReserveOk m q)
    {r : Manager × Option Nat} (h : reserveResourceBound m q nowait nowait' = some r) :
    r.1.Ok ∧ extent r.1.ranges = extent m.ranges := by
  rcases reserve_cases hok.toCore hw hcond h with rfl |
    ⟨s, rstart, hs, hfree, hcount, hstart, hroom, rfl⟩ | ⟨s, hs, halloc, hshare, hq, rfl⟩
  · exact ⟨hok, rfl⟩
  · exact carve_ok hok hs hfree hcount hw.count hstart hroom nowait nowait'
  · rcases share_ok hok hs halloc hshare hq nowait nowait' with ⟨hok', hranges⟩
    exact ⟨hok', by rw [hranges]⟩

end Reserve

end FreeBSDKern.Rman
