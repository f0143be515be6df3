import FreeBSDKern.Rman.Ranges

/-!
# Managing a Region

`rman_manage_region` adds a region to the list, where it can be merged with the
free entries it touches. The entry before is found by the end it has plus one,
and the last word plus one is zero: a free entry that ends there is taken for
one that ends just before a region that starts at zero. `ManageOk` leaves this
case out.

## Main definitions

* `ManageOk`: A region that is not merged by the wrapped sum.

## Theorems

* `manageRegion_ok`: Managing a region adds its numbers to the list.
-/

namespace FreeBSDKern.Rman

open Lib

/-- The region is not empty, and does not start at zero where the first entry is
    free, behind it, and ends at the last word. -/
def ManageOk (m : Manager) (start end' : Nat) : Prop :=
  start ≤ end' ∧ ∀ s ∈ m.rmList.head?, ¬(start = 0 ∧ (m.res s).rEnd = ulongMax ∧
    (m.res s).rFlags = 0#32 ∧ end' < (m.res s).rStart)

section Manage

variable {m : Manager} {start end' : Nat}

/-- Where a new region goes: behind the entries that end before it, with an entry
    at hand that is just before it or behind it. -/
structure Place (m : Manager) (start end' : Nat) (pre : List Nat) (s : Nat) (post : List Nat) :
    Prop where
  list : m.rmList = pre ++ s :: post
  front : ∀ i ∈ pre, (m.res i).rEnd + 1 < start
  side : (m.res s).rEnd + 1 = start ∨ end' < (m.res s).rStart
  behind : ∀ i ∈ post, end' < (m.res i).rStart

variable {s : Nat} {pre post : List Nat}

theorem place_of_skip (hok : m.Ok) (hle : start ≤ end') (hend : end' < wordSize)
    (hs : skipBefore m start = some s) (hnot : ¬(start ≤ (m.res s).rEnd ∧ end' ≥ (m.res s).rStart))
    (hnext : (next? m.rmList s).any
      (fun t => start ≤ (m.res t).rEnd ∧ end' ≥ (m.res t).rStart) = false) :
    ∃ pre post, Place m start end' pre s post := by
  rcases List.find?_eq_some_iff_append.mp hs with ⟨hpred, pre, post, hlist, hpre⟩
  rcases hok.toCore.lt_of_split hlist with ⟨-, hself, hafter⟩
  have hmax := ulongMax_succ
  have hnodup := hok.nodup
  rw [hlist] at hnodup
  rw [hlist, next?_split s pre post (notMem_front hnodup)] at hnext
  -- The entry is not before the region unless they touch.
  have hside : (m.res s).rEnd + 1 = start ∨ end' < (m.res s).rStart := by
    by_cases hlt : (m.res s).rEnd < start
    · rcases of_decide_eq_true hpred with heq | hge
      · omega
      · rw [add_one (by omega)] at hge
        omega
    · omega
  refine ⟨pre, post, hlist, ?_, hside, ?_⟩
  · intro i hi
    have hword := hok.word i (by rw [hlist]; exact List.mem_append_left _ hi)
    have hfail := hpre i hi
    rw [Bool.not_eq_true', decide_eq_false_iff_not, not_or] at hfail
    rw [add_one (by omega)] at hfail
    omega
  rcases hside with hside | hside
  · cases post with
    | nil => exact fun i hi => absurd hi List.not_mem_nil
    | cons t ts =>
      have hsplit : m.rmList = (pre ++ [s]) ++ t :: ts := by
        rw [hlist, List.append_assoc, List.singleton_append]
      rcases hok.toCore.lt_of_split hsplit with ⟨-, htself, htafter⟩
      have ht : end' < (m.res t).rStart := by
        rw [List.head?_cons, Option.any_some, decide_eq_false_iff_not] at hnext
        have := hafter t List.mem_cons_self
        omega
      intro i hi
      rcases List.mem_cons.mp hi with rfl | hi
      · exact ht
      · have := htafter i hi
        omega
  intro i hi
  have := hafter i hi
  omega

/-- The numbers of the region lie between the entries before and behind. -/
theorem Place.between (hp : Place m start end' pre s post) :
    (∀ i ∈ pre, ∀ x ∈ extent [(start, end')], (m.res i).rEnd < x) ∧
      ∀ i ∈ post, ∀ x ∈ extent [(start, end')], x < (m.res i).rStart := by
  constructor
  · intro i hi x hx
    have := hp.front i hi
    rw [mem_extent_singleton] at hx
    omega
  intro i hi x hx
  have := hp.behind i hi
  rw [mem_extent_singleton] at hx
  omega

/-- The region fills the gap between two free entries. -/
theorem merge_both (hok : m.Ok) (hle : start ≤ end') {t : Nat}
    (hp : Place m start end' pre s (t :: post)) (hs : (m.res s).rEnd + 1 = start)
    (hsfree : (m.res s).rFlags = 0#32) (ht : end' + 1 = (m.res t).rStart)
    (htfree : (m.res t).rFlags = 0#32) : Change m ((m.setEnd s (m.res t).rEnd).remove t) pre [s, t]
      [(s, { m.res s with rEnd := (m.res t).rEnd })] post (extent [(start, end')]) := by
  have hlist : m.rmList = pre ++ [s] ++ t :: post := by
    rw [hp.list, List.append_assoc, List.singleton_append]
  have hnodup := hok.nodup
  rw [hlist] at hnodup
  have hself := (hok.toCore.lt_of_split hp.list).2.1
  have htself := (hok.toCore.lt_of_split hlist).2.1
  have hun : Unshared m s := hok.toCore.unshared_of_free (allocated_of_flags hsfree)
  have htun : Unshared m t := hok.toCore.unshared_of_free (allocated_of_flags htfree)
  refine .join hok.toCore (by simp [hp.list]) (by simp [hun, htun]) (by simp) ?_ rfl
    (hok.word t (by simp [hp.list])) (by dsimp only; omega) ?_ hp.between.1
    fun i hi x hx => hp.between.2 i (List.mem_cons_of_mem t hi) x hx
  · show m.rmList.erase t = _
    rw [hlist, erase_split t (pre ++ [s]) post (notMem_front hnodup), List.append_assoc,
      List.singleton_append]
  · ext x
    simp [Manager.range]
    omega

/-- The region touches a free entry before it. -/
theorem merge_prev (hok : m.Ok) (hle : start ≤ end') (hend : end' < wordSize)
    (hp : Place m start end' pre s post) (hs : (m.res s).rEnd + 1 = start)
    (hfree : (m.res s).rFlags = 0#32) :
    Change m (m.setEnd s end') pre [s] [(s, { m.res s with rEnd := end' })] post
      (extent [(start, end')]) := by
  have hself := (hok.toCore.lt_of_split hp.list).2.1
  have hun : Unshared m s := hok.toCore.unshared_of_free (allocated_of_flags hfree)
  refine .join hok.toCore (by simp [hp.list]) (List.forall_mem_singleton.mpr hun) (by simp)
    hp.list rfl hend (by dsimp only; omega) ?_ hp.between.1 hp.between.2
  ext x
  simp [Manager.range]
  omega

/-- The region touches a free entry behind it. -/
theorem merge_next (hok : m.Ok) (hle : start ≤ end') {t : Nat}
    (hp : Place m start end' pre s (t :: post)) (hs : (m.res s).rEnd + 1 = start)
    (ht : end' + 1 = (m.res t).rStart) (hfree : (m.res t).rFlags = 0#32) :
    Change m (m.setStart t start) (pre ++ [s]) [t] [(t, { m.res t with rStart := start })] post
      (extent [(start, end')]) := by
  have hlist : m.rmList = pre ++ [s] ++ t :: post := by
    rw [hp.list, List.append_assoc, List.singleton_append]
  have htself := (hok.toCore.lt_of_split hlist).2.1
  have hun : Unshared m t := hok.toCore.unshared_of_free (allocated_of_flags hfree)
  refine .join hok.toCore (by simp [hp.list]) (List.forall_mem_singleton.mpr hun) (by simp)
    hlist rfl (hok.word t (by simp [hp.list])) (by dsimp only; omega) ?_ ?_
    fun i hi x hx => hp.between.2 i (List.mem_cons_of_mem t hi) x hx
  · ext x
    simp [Manager.range]
    omega
  · intro i hi x hx
    rcases List.mem_append.mp hi with hi | hi
    · exact hp.between.1 i hi x hx
    rw [List.mem_singleton.mp hi]
    rw [mem_extent_singleton] at hx
    omega

/-- The region gets an entry of its own. -/
theorem insert_new (hle : start ≤ end') (hend : end' < wordSize) {l : List Nat}
    (hlist : m.rmList = pre ++ post) (hnew : l = pre ++ m.nextRes :: post)
    (hleft : ∀ i ∈ pre, (m.res i).rEnd < start) (hright : ∀ i ∈ post, end' < (m.res i).rStart) :
    Change m { (m.alloc ⟨start, end', 0#32, none⟩).1 with rmList := l } pre []
      [(m.nextRes, ⟨start, end', 0#32, none⟩)] post (extent [(start, end')]) where
  before := by simp [hlist]
  after := by simp [hnew]
  entries := by simp [Manager.alloc, Manager.put]
  frame := by
    intro i _ hi
    have hne : i ≠ m.nextRes := by omega
    simp [Manager.alloc, Manager.put, hne]
  next := Nat.le_succ _
  heads := rfl
  nextHead := rfl
  nodup := by simp
  source := by simp [Manager.alloc]
  unshared := by simp
  plain := by simp
  word := by simp [hend]
  ranges := by simp [hle]
  extent := by simp
  left := by
    intro i hi x hx
    have := hleft i hi
    rw [mem_extent_singleton] at hx
    omega
  right := by
    intro i hi x hx
    have := hright i hi
    rw [mem_extent_singleton] at hx
    omega

/-- At its place the region is merged with the entries it touches, or inserted. -/
theorem mergeRegion_ok (hok : m.Ok) (hcond : ManageOk m start end') (hend : end' < wordSize)
    (hp : Place m start end' pre s post) : (mergeRegion m s start end').Ok ∧
      extent (mergeRegion m s start end').ranges = extent m.ranges ∪ extent [(start, end')] := by
  have hmax := ulongMax_succ
  have hle := hcond.1
  have hnodup := hok.nodup
  rw [hp.list] at hnodup
  have hmem : s ∉ pre := notMem_front hnodup
  have hnext : next? m.rmList s = post.head? := by
    rw [hp.list, next?_split s pre post hmem]
  rcases hok.toCore.lt_of_split hp.list with ⟨hfront, hself, hbehind⟩
  have hsin : s ∈ m.rmList := by simp [hp.list]
  have hword := hok.word s hsin
  have hsres : ((m.alloc ⟨start, end', 0#32, none⟩).1.res s) = m.res s := by
    have hne : s ≠ m.nextRes := ne_of_lt (hok.fresh s hsin)
    simp [Manager.alloc, Manager.put, hne]
  unfold mergeRegion
  rw [hnext]
  dsimp only
  rcases hp.side with hside | hside
  · -- The entry is just before the region.
    have hsum : add (m.res s).rEnd 1 = start := by rw [add_one (by omega), hside]
    cases ht : post.head?.filter
        (fun t => add end' 1 = (m.res t).rStart ∧ (m.res t).rFlags = 0#32) with
    | none =>
      by_cases hflags : (m.res s).rFlags = 0#32
      · rw [if_pos ⟨hsum, hflags⟩]
        exact hok.rewrite (merge_prev hok hle hend hp hside hflags)
      rw [if_neg (fun h => hflags h.2)]
      dsimp only
      rw [if_pos (by rw [hsres]; omega)]
      have hlist : m.rmList = (pre ++ [s]) ++ post := by simp [hp.list]
      refine hok.rewrite (insert_new hle hend hlist ?_ ?_ hp.behind)
      · show insertAfter m.rmList s m.nextRes = _
        rw [hp.list, insertAfter_split s m.nextRes pre post hmem, List.append_assoc,
          List.singleton_append]
      intro i hi
      rcases List.mem_append.mp hi with hi | hi
      · have := hp.front i hi
        omega
      · rw [List.mem_singleton.mp hi]
        omega
    | some t =>
      rcases Option.filter_eq_some_iff.mp ht with ⟨hhead, hpred⟩
      rcases List.head?_eq_some_iff.mp hhead with ⟨ts, rfl⟩
      rcases of_decide_eq_true hpred with ⟨htouch, htfree⟩
      have hlt := hp.behind t List.mem_cons_self
      have htword := hok.word t (by simp [hp.list])
      have htself := (hok.toCore.lt_of_split (show m.rmList = pre ++ [s] ++ t :: ts by
        simp [hp.list])).2.1
      rw [add_one (by omega)] at htouch
      by_cases hflags : (m.res s).rFlags = 0#32
      · rw [if_pos ⟨hsum, hflags⟩]
        exact hok.rewrite (merge_both hok hle hp hside hflags htouch htfree)
      · rw [if_neg (fun h => hflags h.2)]
        exact hok.rewrite (merge_next hok hle hp hside htouch htfree)
  · -- The entry is behind the region, and so is the next one.
    have hcur : ¬(add (m.res s).rEnd 1 = start ∧ (m.res s).rFlags = 0#32) := by
      rintro ⟨hsum, hflags⟩
      by_cases hlast : (m.res s).rEnd = ulongMax
      · -- The sum has wrapped, and the entry is the first.
        rw [hlast, add_one_max] at hsum
        have hnil : pre = [] := by
          cases hpre : pre with
          | nil => rfl
          | cons i is =>
            have := hp.front i (by rw [hpre]; exact List.mem_cons_self)
            omega
        have hhead : s ∈ m.rmList.head? := by
          rw [hp.list, hnil]
          rfl
        exact hcond.2 s hhead ⟨hsum.symm, hlast, hflags, hside⟩
      · rw [add_one (by omega)] at hsum
        omega
    have hnone : post.head?.filter
        (fun t => add end' 1 = (m.res t).rStart ∧ (m.res t).rFlags = 0#32) = none := by
      rw [Option.filter_eq_none_iff]
      intro t ht hpred
      have htouch := (of_decide_eq_true hpred).1
      have := hbehind t (List.mem_of_head? ht)
      rw [add_one (by omega)] at htouch
      omega
    rw [if_neg hcur, hnone]
    dsimp only
    rw [if_neg (by rw [hsres]; omega)]
    refine hok.rewrite (insert_new hle hend hp.list ?_ ?_ ?_)
    · show insertBefore m.rmList s m.nextRes = _
      rw [hp.list, insertBefore_split s m.nextRes pre post hmem]
    · intro i hi
      have := hp.front i hi
      omega
    intro i hi
    rcases List.mem_cons.mp hi with rfl | hi
    · exact hside
    · exact hp.behind i hi

theorem manageRegion_ok (hok : m.Ok) (hcond : ManageOk m start end') (hend : end' < wordSize)
    (nowait : Bool) : (manageRegion m start end' nowait).1.Ok ∧
      extent (manageRegion m start end' nowait).1.ranges = extent m.ranges ∪
        (if (manageRegion m start end' nowait).2 = none then extent [(start, end')] else ∅) := by
  have hfail : ∀ e : Errno, m.Ok ∧ extent m.ranges = extent m.ranges ∪
      (if some e = none then extent [(start, end')] else ∅) := by
    intro e
    refine ⟨hok, ?_⟩
    rw [if_neg (by simp only [reduceCtorEq, not_false_eq_true]), Set.union_empty]
  unfold manageRegion
  split
  case isTrue => exact hfail .einval
  case isFalse =>
  split
  case isTrue => exact hfail .enomem
  case isFalse =>
  split
  case h_1 hskip =>
    -- The region is behind all entries.
    have hlast : ∀ i ∈ m.rmList, (m.res i).rEnd < start := by
      intro i hi
      have hnot := List.find?_eq_none.mp hskip i hi
      have hword := hok.word i hi
      have hmax := ulongMax_succ
      rw [decide_eq_true_eq, not_or] at hnot
      rw [add_one (by omega)] at hnot
      omega
    rw [if_pos rfl]
    exact hok.rewrite (insert_new hcond.1 hend (List.append_nil _).symm rfl hlast
      (fun i hi => absurd hi List.not_mem_nil))
  case h_2 s hskip =>
  split
  case isTrue => exact hfail .ebusy
  case isFalse hnot =>
  split
  case isTrue => exact hfail .ebusy
  case isFalse hnext =>
  rw [if_pos rfl]
  rcases place_of_skip hok hcond.1 hend hskip hnot (Bool.eq_false_iff.mpr hnext)
    with ⟨pre, post, hp⟩
  exact mergeRegion_ok hok hcond hend hp

end Manage

end FreeBSDKern.Rman
