import FreeBSDKern.Rman.Ranges

/-!
# Releasing a Resource

A resource that is not shared is merged with the free neighbours that touch it.
One that is shared leaves the sharing list, and hands its place in the list of
the manager to another sharer, which has the same bounds. Either way the
manager covers what it covered.

## Theorems

* `setFlags_ok`: Flags that the invariant does not look at.
* `releasePlain_ok`, `releaseShared_ok`: The two cases.
* `releaseResource_ok`: Releasing a resource keeps the invariant.
-/

namespace FreeBSDKern.Rman

open Lib Function

section Flags

variable {a : Flags} {r s h lead : Nat} {pre post : List Nat}

theorem has_andNot (f : Flags) {b : Flags} (h : a &&& b = 0#32) : has (f &&& ~~~a) b = has f b := by
  have hb : ~~~a &&& b = b := by
    ext i hi
    have hbit := congrArg (fun x => x.getLsbD i) h
    simp only [BitVec.getLsbD_and, BitVec.getLsbD_zero] at hbit
    simp only [BitVec.getElem_and, BitVec.getElem_not]
    rw [← BitVec.getLsbD_eq_getElem, ← BitVec.getLsbD_eq_getElem]
    cases ha : a.getLsbD i with
    | false => simp
    | true => simp_all
  rw [has, has, BitVec.and_assoc, hb]

theorem has_or (f : Flags) {b : Flags} (h : a &&& b = 0#32) : has (f ||| a) b = has f b := by
  have hdist : (f ||| a) &&& b = (f &&& b) ||| (a &&& b) := by
    ext i hi
    simp [Bool.and_or_distrib_right]
  rw [has, has, hdist, h, BitVec.or_zero]

theorem has_or_self (f : Flags) (h : a ≠ 0#32) : has (f ||| a) a = true := by
  have habs : (f ||| a) &&& a = a := by
    ext i hi
    simp only [BitVec.getElem_and, BitVec.getElem_or, Bool.and_eq_right_iff_imp, Bool.or_eq_true]
    exact .inr
  rw [has, habs, bne_iff_ne]
  exact h

theorem has_andNot_self (f a : Flags) : has (f &&& ~~~a) a = false := by
  have hz : (f &&& ~~~a) &&& a = 0#32 := by
    ext i hi
    simp
  rw [has, hz]
  rfl

end Flags

section Release

variable {m : Manager}

/-- Flags that the invariant does not look at. -/
theorem setFlags_core (hok : m.Core) {f : Flags}
    (ha : has f rfAllocated = has (m.res r).rFlags rfAllocated)
    (hs : has f rfShareable = has (m.res r).rFlags rfShareable)
    (hf : has f rfFirstshare = has (m.res r).rFlags rfFirstshare) :
    (m.setFlags r f).Core ∧ (m.setFlags r f).ranges = m.ranges := by
  have hrange : ∀ i, (m.setFlags r f).range i = m.range i := by
    intro i
    by_cases hi : i = r <;> simp [Manager.range, Manager.setFlags, Manager.put, hi]
  have hhead : ∀ i, ((m.setFlags r f).res i).rSharehead = (m.res i).rSharehead := by
    intro i
    by_cases hi : i = r <;> simp [Manager.setFlags, Manager.put, hi]
  have hflag : ∀ i, ∀ b ∈ [rfAllocated, rfShareable, rfFirstshare],
      has ((m.setFlags r f).res i).rFlags b = has (m.res i).rFlags b := by
    intro i b hb
    by_cases hi : i = r
    · subst hi
      simp only [List.mem_cons, List.not_mem_nil, or_false] at hb
      simp only [Manager.setFlags, Manager.put, update_self]
      rcases hb with rfl | rfl | rfl
      · exact ha
      · exact hs
      · exact hf
    · simp [Manager.setFlags, Manager.put, hi]
  have hranges : (m.setFlags r f).ranges = m.ranges := List.map_congr_left (fun i _ => hrange i)
  refine ⟨⟨hok.nodup, hok.fresh, ?_, ?_, ?_, ?_, hok.freshHead⟩, hranges⟩
  · rw [hranges]
    exact hok.ranges
  · intro i hi
    have hend : ((m.setFlags r f).res i).rEnd = (m.res i).rEnd := congrArg Prod.snd (hrange i)
    rw [hend]
    exact hok.word i hi
  · intro h
    rcases hok.groups h with hnil | ⟨lead, hg⟩
    · exact .inl hnil
    refine .inr ⟨lead, hg.listed, hg.mem, hg.nodup, hg.fresh, ?_, ?_, ?_, ?_, hg.unique, ?_⟩
    · intro i hi
      rw [hhead]
      exact hg.head i hi
    · intro i hi
      rw [Manager.allocated, hflag i rfAllocated (by simp)]
      exact hg.allocated i hi
    · intro i hi
      rw [hflag i rfShareable (by simp)]
      exact hg.shareable i hi
    · intro i hi
      rw [hrange, hrange]
      exact hg.range i hi
    intro i hi
    rw [hflag i rfFirstshare (by simp)]
    exact hg.first i hi
  intro i hi h hsome
  rw [hhead] at hsome
  exact hok.shared i hi h hsome

section

variable (hok : m.Core) (hlist : m.rmList = pre ++ r :: post)
include hok hlist

/-- The neighbour behind, to be merged with. -/
theorem mergeNext_some {t : Nat} (ht : mergeNext m r = some t) :
    ∃ post', post = t :: post' ∧ m.allocated t = false ∧ (m.res r).rEnd + 1 = (m.res t).rStart := by
  have hnodup := hok.nodup
  rw [hlist] at hnodup
  rw [mergeNext, hlist, next?_split r pre post (notMem_front hnodup)] at ht
  rcases Option.filter_eq_some_iff.mp ht with ⟨hhead, hpred⟩
  rcases List.head?_eq_some_iff.mp hhead with ⟨post', rfl⟩
  rcases of_decide_eq_true hpred with ⟨hfree, htouch⟩
  refine ⟨post', rfl, by simpa using hfree, ?_⟩
  -- The sum does not wrap: something starts behind the resource.
  have hlt := (hok.lt_of_split hlist).2.2 t List.mem_cons_self
  have hself := (hok.lt_of_split (show m.rmList = pre ++ [r] ++ t :: post' by simp [hlist])).2.1
  have hword := hok.word t (by simp [hlist])
  have hmax := ulongMax_succ
  rwa [add_one (by omega)] at htouch

theorem mergePrev_some (hs : mergePrev m r = some s) :
    ∃ pre', pre = pre' ++ [s] ∧ m.allocated s = false ∧ (m.res s).rEnd + 1 = (m.res r).rStart := by
  have hnodup := hok.nodup
  rw [hlist] at hnodup
  rw [mergePrev, hlist, prev?_append hnodup] at hs
  rcases Option.filter_eq_some_iff.mp hs with ⟨hlast, hpred⟩
  rcases List.getLast?_eq_some_iff.mp hlast with ⟨pre', rfl⟩
  rcases of_decide_eq_true hpred with ⟨hfree, htouch⟩
  refine ⟨pre', rfl, by simpa using hfree, ?_⟩
  have hlt := (hok.lt_of_split hlist).1 s (by simp)
  have hself := (hok.lt_of_split hlist).2.1
  have hword := hok.word r (by simp [hlist])
  have hmax := ulongMax_succ
  rwa [add_one (by omega)] at htouch

/-- A free neighbour that is not merged with does not touch the resource. -/
theorem mergeNext_none (h : mergeNext m r = none) :
    ∀ t ∈ post.head?, m.allocated t = false → (m.res r).rEnd + 1 ≠ (m.res t).rStart := by
  have hnodup := hok.nodup
  rw [hlist] at hnodup
  rw [mergeNext, hlist, next?_split r pre post (notMem_front hnodup),
    Option.filter_eq_none_iff] at h
  intro t ht hfree htouch
  have htin : t ∈ m.rmList := by
    rw [hlist]
    exact List.mem_append_right _ (List.mem_cons_of_mem r (List.mem_of_mem_head? ht))
  have hself : (m.res t).rStart ≤ (m.res t).rEnd :=
    hok.ranges.nonempty _ (List.mem_map_of_mem htin)
  have hword := hok.word t htin
  have hmax := ulongMax_succ
  refine h t ht (decide_eq_true ⟨by rw [hfree]; rfl, ?_⟩)
  rw [add_one (by omega), htouch]

theorem mergePrev_none (h : mergePrev m r = none) :
    ∀ p ∈ pre.getLast?, m.allocated p = false → (m.res p).rEnd + 1 ≠ (m.res r).rStart := by
  have hnodup := hok.nodup
  rw [hlist] at hnodup
  rw [mergePrev, hlist, prev?_append hnodup, Option.filter_eq_none_iff] at h
  intro p hp hfree htouch
  have hself := (hok.lt_of_split hlist).2.1
  have hword := hok.word r (by simp [hlist])
  have hmax := ulongMax_succ
  refine h p hp (decide_eq_true ⟨by rw [hfree]; rfl, ?_⟩)
  rw [add_one (by omega), htouch]

end

/-- The entry before takes over a resource and the entry behind it. -/
theorem absorb_both (hok : m.Core) {t : Nat} (hlist : m.rmList = pre ++ s :: r :: t :: post)
    (hs : (m.res s).rEnd + 1 = (m.res r).rStart) (ht : (m.res r).rEnd + 1 = (m.res t).rStart)
    (hsun : Unshared m s) (hrun : Unshared m r) (htun : Unshared m t) :
    Change m (((m.setEnd s (m.res t).rEnd).remove r).remove t) pre [s, r, t]
      [(s, { m.res s with rEnd := (m.res t).rEnd })] post ∅ := by
  have hnodup := hok.nodup
  have hlist' : m.rmList = pre ++ [s] ++ r :: t :: post := by simp [hlist]
  have hnodup' := hnodup
  rw [hlist'] at hnodup
  have hself := (hok.lt_of_split hlist).2.1
  have hrself := (hok.lt_of_split hlist').2.1
  have hlist'' : m.rmList = pre ++ [s] ++ [r] ++ t :: post := by simp [hlist]
  have htself := (hok.lt_of_split hlist'').2.1
  rw [hlist''] at hnodup'
  have htmem : t ∉ pre ++ [s] := fun hin => notMem_front hnodup' (List.mem_append_left [r] hin)
  refine .join hok (by simp [hlist]) (by simp [hsun, hrun, htun]) (by simp) ?_ rfl
    (hok.word t (by simp [hlist])) (by dsimp only; omega) ?_ (by simp) (by simp)
  · show (m.rmList.erase r).erase t = _
    rw [hlist', erase_split r (pre ++ [s]) (t :: post) (notMem_front hnodup),
      erase_split t (pre ++ [s]) post htmem]
    simp
  · ext x
    simp [Manager.range]
    omega

/-- A resource that is not shared becomes a free entry, together with what is free around
    it. -/
theorem releasePlain_change (hok : m.Core) (hr : r ∈ m.rmList) (hnone : (m.res r).rSharehead = none)
    : ∃ pre e post, Change m (releasePlain m r) pre
        ((mergePrev m r).toList ++ r :: (mergeNext m r).toList) [e] post ∅ ∧
      mark e.2 = (((m.res ((mergePrev m r).getD r)).rStart,
        (m.res ((mergeNext m r).getD r)).rEnd), false) := by
  rcases List.append_of_mem hr with ⟨pre, post, hlist⟩
  have hun := hok.unshared_of_none hnone
  unfold releasePlain
  cases hs : mergePrev m r with
  | none =>
    cases ht : mergeNext m r with
    | none =>
      exact ⟨pre, _, post, set_flags hok hlist hun _, Prod.ext rfl (has_andNot_self _ _)⟩
    | some t =>
      rcases mergeNext_some hok hlist ht with ⟨post', rfl, hfree, htouch⟩
      exact ⟨pre, _, post', absorb_prev hok hlist htouch hun (hok.unshared_of_free hfree),
        Prod.ext rfl hfree⟩
  | some s =>
    rcases mergePrev_some hok hlist hs with ⟨pre', rfl, hfree, htouch⟩
    have hsun := hok.unshared_of_free hfree
    cases ht : mergeNext m r with
    | none =>
      have hlist' : m.rmList = pre' ++ s :: r :: post := by simp [hlist]
      exact ⟨pre', _, post, absorb_next hok hlist' htouch hsun hun, Prod.ext rfl hfree⟩
    | some t =>
      rcases mergeNext_some hok hlist ht with ⟨post', rfl, htfree, htouch'⟩
      have hlist' : m.rmList = pre' ++ s :: r :: t :: post' := by simp [hlist]
      exact ⟨pre', _, post', absorb_both hok hlist' htouch htouch' hsun hun
        (hok.unshared_of_free htfree), Prod.ext rfl hfree⟩

/-- A resource that is not shared is merged with what is free around it. -/
theorem releasePlain_ok (hok : m.Ok) (hr : r ∈ m.rmList) (hnone : (m.res r).rSharehead = none) :
    (releasePlain m r).Ok ∧ extent (releasePlain m r).ranges = extent m.ranges := by
  rcases releasePlain_change hok.toCore hr hnone with ⟨pre, e, post, hc, -⟩
  exact hok.keep hc

/-! ## Shared resources -/

/-- The sharers of another resource are not those of this one. -/
theorem Group.ne {h' lead' i j : Nat} (hg : Group m h lead) (hg' : Group m h' lead') (hne : h' ≠ h)
    (hi : i ∈ m.heads h) (hj : j ∈ m.heads h') : j ≠ i := by
  rintro rfl
  have := (hg.head j hi).symm.trans (hg'.head j hj)
  exact hne (Option.some.inj this).symm

/-- A sharer that is not the first leaves. -/
theorem leave_ok (hok : m.Core) (hg : Group m h lead) (hne : r ≠ lead) :
    (leave m r h).Core ∧ Group (leave m r h) h lead := by
  have hself : (leave m r h).heads h = (m.heads h).erase r := update_self _ _ _
  have hmem : ∀ {i}, i ∈ (m.heads h).erase r → i ∈ m.heads h := List.mem_of_mem_erase
  have hgroup : Group (leave m r h) h lead := by
    constructor
    case listed => exact hg.listed
    case mem =>
      rw [hself]
      exact (List.mem_erase_of_ne (Ne.symm hne)).mpr hg.mem
    case nodup =>
      rw [hself]
      exact hg.nodup.erase r
    all_goals
      rw [hself]
      intro i hi
    case fresh => exact hg.fresh i (hmem hi)
    case head => exact hg.head i (hmem hi)
    case allocated => exact hg.allocated i (hmem hi)
    case shareable => exact hg.shareable i (hmem hi)
    case range => exact hg.range i (hmem hi)
    case unique => exact hg.unique i (hmem hi)
    case first => exact hg.first i (hmem hi)
  refine ⟨⟨hok.nodup, hok.fresh, hok.ranges, hok.word, ?_, ?_, ?_⟩, hgroup⟩
  · intro h'
    by_cases heq : h' = h
    · rw [heq]
      exact .inr ⟨lead, hgroup⟩
    have hsame : (leave m r h).heads h' = m.heads h' := update_of_ne heq _ _
    rcases hok.groups h' with hnil | ⟨lead', hg'⟩
    · exact .inl (hsame.trans hnil)
    · exact .inr ⟨lead', hg'.frame hsame le_rfl (fun _ _ => rfl) (fun _ _ => Iff.rfl)⟩
  · intro i hi h' hhead
    have hin := hok.shared i hi h' hhead
    by_cases heq : h' = h
    · subst heq
      rw [hself]
      -- Of the sharers only the first is in the list of the manager.
      have hlead : i = lead := (hg.unique i hin).mp hi
      exact (List.mem_erase_of_ne (by rw [hlead]; exact Ne.symm hne)).mpr hin
    have hsame : (leave m r h).heads h' = m.heads h' := update_of_ne heq _ _
    rw [hsame]
    exact hin
  intro h' hle
  have hnil := hok.freshHead h' hle
  by_cases heq : h' = h
  · subst heq
    rw [hself, hnil]
    rfl
  · exact (update_of_ne heq _ _).trans hnil

/-- Another sharer takes the place of the first in the list of the manager. -/
theorem appoint_list (hok : m.Core) (hg : Group m h r) (hne : s ≠ r) :
    ∃ pre post, m.rmList = pre ++ r :: post ∧
      (appoint (leave m r h) r s).rmList = pre ++ s :: post := by
  rcases List.append_of_mem hg.listed with ⟨pre, post, hlist⟩
  have hnodup := hok.nodup
  rw [hlist] at hnodup
  refine ⟨pre, post, hlist, ?_⟩
  have hr : r ∉ pre ++ [s] := by
    intro hin
    rcases List.mem_append.mp hin with hin | hin
    · exact notMem_front hnodup hin
    · exact hne (List.mem_singleton.mp hin).symm
  show (insertBefore m.rmList r s).erase r = _
  rw [hlist, insertBefore_split r s pre post (notMem_front hnodup)]
  rw [show pre ++ s :: r :: post = (pre ++ [s]) ++ r :: post by simp,
    erase_split r (pre ++ [s]) post hr]
  simp

theorem appoint_mem (hok : m.Core) (hg : Group m h r) (hne : s ≠ r) (i : Nat) :
    i ∈ (appoint (leave m r h) r s).rmList ↔ i = s ∨ (i ∈ m.rmList ∧ i ≠ r) := by
  rcases appoint_list hok hg hne with ⟨pre, post, hlist, hlist'⟩
  have hnodup := hok.nodup
  rw [hlist] at hnodup
  rw [hlist', hlist]
  have hrpre : r ∉ pre := notMem_front hnodup
  have hrpost : r ∉ post := (List.nodup_cons.mp (List.nodup_append.mp hnodup).2.1).1
  simp only [List.mem_append, List.mem_cons]
  constructor
  · rintro (hi | rfl | hi)
    · exact .inr ⟨.inl hi, fun heq => hrpre (heq ▸ hi)⟩
    · exact .inl rfl
    · exact .inr ⟨.inr (.inr hi), fun heq => hrpost (heq ▸ hi)⟩
  rintro (rfl | ⟨hi | rfl | hi, hir⟩)
  · exact .inr (.inl rfl)
  · exact .inl hi
  · exact absurd rfl hir
  · exact .inr (.inr hi)

/-- The first sharer leaves, and another one takes its place in the list of the
    manager. -/
theorem appoint_ok (hok : m.Core) (hg : Group m h r) (hs : s ∈ m.heads h) (hne : s ≠ r) :
    (appoint (leave m r h) r s).Core ∧ (appoint (leave m r h) r s).ranges = m.ranges ∧
      Group (appoint (leave m r h) r s) h s := by
  have hin := appoint_mem hok hg hne
  rcases appoint_list hok hg hne with ⟨pre, post, hlist, hlist'⟩
  have hnodup := hok.nodup
  rw [hlist] at hnodup
  have hsout : s ∉ m.rmList := fun hin => hne ((hg.unique s hs).mp hin)
  have hres : ∀ i, i ≠ s → (appoint (leave m r h) r s).res i = m.res i :=
    fun i hi => update_of_ne hi _ _
  have hres' : (appoint (leave m r h) r s).res s =
      { m.res s with rFlags := (m.res s).rFlags ||| rfFirstshare } := update_self _ _ _
  have hrange : ∀ i, (appoint (leave m r h) r s).range i = m.range i := range_put rfl
  have hhead : ∀ i, ((appoint (leave m r h) r s).res i).rSharehead = (m.res i).rSharehead := by
    intro i
    by_cases hi : i = s
    · rw [hi, hres']
    · rw [hres i hi]
  -- The new flag is none of the others.
  have hflag : ∀ i, ∀ b, rfFirstshare &&& b = 0#32 →
      has ((appoint (leave m r h) r s).res i).rFlags b = has (m.res i).rFlags b := by
    intro i b hb
    by_cases hi : i = s
    · rw [hi, hres']
      exact has_or _ hb
    · rw [hres i hi]
  have hself : (appoint (leave m r h) r s).heads h = (m.heads h).erase r := update_self _ _ _
  have hmem : ∀ {i}, i ∈ (appoint (leave m r h) r s).heads h → i ∈ m.heads h ∧ i ≠ r := by
    intro i hi
    rw [hself] at hi
    exact ⟨List.mem_of_mem_erase hi, fun heq => hg.nodup.not_mem_erase (heq ▸ hi)⟩
  have hranges : (appoint (leave m r h) r s).ranges = m.ranges := by
    rw [Manager.ranges, Manager.ranges, hlist', hlist, List.map_append, List.map_append,
      List.map_cons, List.map_cons, List.map_congr_left (fun i _ => hrange i),
      List.map_congr_left (fun i _ => hrange i), hrange, hg.range s hs]
  have hgroup : Group (appoint (leave m r h) r s) h s := by
    constructor
    case listed => exact (hin s).mpr (.inl rfl)
    case mem =>
      rw [hself]
      exact (List.mem_erase_of_ne hne).mpr hs
    case nodup =>
      rw [hself]
      exact hg.nodup.erase r
    case fresh => exact fun i hi => hg.fresh i (hmem hi).1
    case head =>
      intro i hi
      rw [hhead]
      exact hg.head i (hmem hi).1
    case allocated =>
      intro i hi
      rw [Manager.allocated, hflag i rfAllocated (by decide)]
      exact hg.allocated i (hmem hi).1
    case shareable =>
      intro i hi
      rw [hflag i rfShareable (by decide)]
      exact hg.shareable i (hmem hi).1
    case range =>
      intro i hi
      rw [hrange, hrange, hg.range i (hmem hi).1, hg.range s hs]
    case unique =>
      intro i hi
      rw [hin]
      constructor
      · rintro (rfl | ⟨hi', hir⟩)
        · rfl
        · exact absurd ((hg.unique i (hmem hi).1).mp hi') hir
      · exact .inl
    case first =>
    intro i hi
    by_cases his : i = s
    · rw [his, hres']
      exact ⟨fun _ => rfl, fun _ => has_or_self _ (by decide)⟩
    rw [hres i his]
    exact ⟨fun hf => absurd ((hg.first i (hmem hi).1).mp hf) (hmem hi).2,
      fun heq => absurd heq his⟩
  refine ⟨⟨?_, ?_, ?_, ?_, ?_, ?_, ?_⟩, hranges, hgroup⟩
  · rw [hlist']
    have hsnot : s ∉ pre ++ post := by
      intro hi
      refine hsout ?_
      rw [hlist]
      rcases List.mem_append.mp hi with hi | hi
      · exact List.mem_append_left _ hi
      · exact List.mem_append_right _ (List.mem_cons_of_mem r hi)
    have hrest : (pre ++ post).Nodup :=
      (List.nodup_cons.mp ((List.perm_middle.nodup_iff).mp hnodup)).2
    exact (List.perm_middle.nodup_iff).mpr (List.nodup_cons.mpr ⟨hsnot, hrest⟩)
  · intro i hi
    rcases (hin i).mp hi with rfl | ⟨hi, -⟩
    · exact hg.fresh i hs
    · exact hok.fresh i hi
  · rw [hranges]
    exact hok.ranges
  · intro i hi
    have hend : ((appoint (leave m r h) r s).res i).rEnd = (m.res i).rEnd := congrArg Prod.snd (hrange i)
    rw [hend]
    rcases (hin i).mp hi with rfl | ⟨hi, -⟩
    · have hsame : (m.res i).rEnd = (m.res r).rEnd := congrArg Prod.snd (hg.range i hs)
      rw [hsame]
      exact hok.word r hg.listed
    · exact hok.word i hi
  · intro h'
    by_cases heq : h' = h
    · rw [heq]
      exact .inr ⟨s, hgroup⟩
    have hsame : (appoint (leave m r h) r s).heads h' = m.heads h' := update_of_ne heq _ _
    rcases hok.groups h' with hnil | ⟨lead', hg'⟩
    · exact .inl (hsame.trans hnil)
    refine .inr ⟨lead', hg'.frame hsame le_rfl ?_ ?_⟩
    · exact fun i hi => hres i (hg.ne hg' heq hs hi)
    intro i hi
    rw [hin]
    have his := hg.ne hg' heq hs hi
    have hir := hg.ne hg' heq hg.mem hi
    exact ⟨fun hc => (hc.resolve_left his).1, fun hc => .inr ⟨hc, hir⟩⟩
  · intro i hi h' hsome
    rw [hhead] at hsome
    rcases (hin i).mp hi with rfl | ⟨hi, hir⟩
    · have hh : h' = h := Option.some.inj (hsome.symm.trans (hg.head i hs))
      rw [hh]
      exact hgroup.mem
    have hin' := hok.shared i hi h' hsome
    by_cases heq : h' = h
    · rw [heq] at hin'
      exact absurd ((hg.unique i hin').mp hi) hir
    have hsame : (appoint (leave m r h) r s).heads h' = m.heads h' := update_of_ne heq _ _
    rw [hsame]
    exact hin'
  intro h' hle
  have hnil := hok.freshHead h' hle
  by_cases heq : h' = h
  · rw [heq, hself, ← heq, hnil]
    rfl
  · exact (update_of_ne heq _ _).trans hnil

/-- The sharing ends when one sharer is left. -/
theorem dissolve_ok (hok : m.Core) (hg : Group m h lead) (hone : m.heads h = [s]) :
    (dissolve m h s).Core ∧ (dissolve m h s).ranges = m.ranges := by
  have hs : s ∈ m.heads h := by simp [hone]
  have hres : ∀ i, i ≠ s → (dissolve m h s).res i = m.res i :=
    fun i hi => update_of_ne hi _ _
  have hres' : (dissolve m h s).res s = { m.res s with
      rSharehead := none, rFlags := (m.res s).rFlags &&& ~~~rfFirstshare } :=
    update_self _ _ _
  have hother : ∀ h', h' ≠ h → (dissolve m h s).heads h' = m.heads h' :=
    fun h' heq => update_of_ne heq _ _
  have hrange : ∀ i, (dissolve m h s).range i = m.range i := range_put rfl
  have hranges : (dissolve m h s).ranges = m.ranges := List.map_congr_left (fun i _ => hrange i)
  refine ⟨⟨hok.nodup, hok.fresh, ?_, ?_, ?_, ?_, ?_⟩, hranges⟩
  · rw [hranges]
    exact hok.ranges
  · intro i hi
    have hend : ((dissolve m h s).res i).rEnd = (m.res i).rEnd := congrArg Prod.snd (hrange i)
    rw [hend]
    exact hok.word i hi
  · intro h'
    by_cases heq : h' = h
    · rw [heq]
      exact .inl (update_self _ _ _)
    rcases hok.groups h' with hnil | ⟨lead', hg'⟩
    · exact .inl ((hother h' heq).trans hnil)
    · refine .inr ⟨lead', hg'.frame (hother h' heq) le_rfl ?_ (fun _ _ => Iff.rfl)⟩
      exact fun i hi => hres i (hg.ne hg' heq hs hi)
  · intro i hi h' hhead
    by_cases hi' : i = s
    · rw [hi', hres'] at hhead
      cases hhead
    rw [hres i hi'] at hhead
    have hin := hok.shared i hi h' hhead
    by_cases heq : h' = h
    · rw [heq, hone, List.mem_singleton] at hin
      exact absurd hin hi'
    · rw [hother h' heq]
      exact hin
  intro h' hle
  by_cases heq : h' = h
  · rw [heq]
    exact update_self _ _ _
  · exact (hother h' heq).trans (hok.freshHead h' hle)

/-- The manager after a sharer has left, and another one has been appointed if it was the
    first. -/
def withdrawn (m : Manager) (r h s : Nat) : Manager :=
  if has (m.res r).rFlags rfFirstshare then appoint (leave m r h) r s else leave m r h

/-- If a sharing list exists there is another sharer on it. -/
theorem Manager.Ok.erase_eq (hok : m.Ok) (hr : r ∈ m.heads h) :
    ∃ s others, (m.heads h).erase r = s :: others ∧ s ∈ m.heads h ∧ s ≠ r := by
  rcases hok.toCore.group hr with ⟨lead, hg⟩
  have htwo : 2 ≤ (m.heads h).length := by
    rcases hok.two h with hnil | htwo
    · rw [hnil] at hr
      exact absurd hr List.not_mem_nil
    · exact htwo
  cases hrest : (m.heads h).erase r with
  | nil =>
    have hlen := List.length_erase_of_mem hr
    rw [hrest, List.length_nil] at hlen
    omega
  | cons s others =>
    have hs : s ∈ (m.heads h).erase r := by
      rw [hrest]
      exact List.mem_cons_self
    refine ⟨s, others, rfl, List.mem_of_mem_erase hs, ?_⟩
    rintro rfl
    exact hg.nodup.not_mem_erase hs

theorem withdrawn_ok (hok : m.Core) (hr : r ∈ m.heads h) (hs : s ∈ m.heads h) (hne : s ≠ r) :
    ∃ lead, (withdrawn m r h s).Core ∧ (withdrawn m r h s).ranges = m.ranges ∧
      Group (withdrawn m r h s) h lead ∧
      (withdrawn m r h s).heads = update m.heads h ((m.heads h).erase r) := by
  rcases hok.group hr with ⟨lead, hg⟩
  unfold withdrawn
  by_cases hf : has (m.res r).rFlags rfFirstshare = true
  · have hlead : r = lead := (hg.first r hr).mp hf
    rw [← hlead] at hg
    rcases appoint_ok hok hg hs hne with ⟨hcore, hranges, hgroup⟩
    rw [if_pos hf]
    exact ⟨s, hcore, hranges, hgroup, rfl⟩
  have hlead : r ≠ lead := fun heq => hf ((hg.first r hr).mpr heq)
  rcases leave_ok hok hg hlead with ⟨hcore, hgroup⟩
  rw [if_neg hf]
  exact ⟨lead, hcore, rfl, hgroup, rfl⟩

theorem releaseShared_eq {others : List Nat} (hrest : (m.heads h).erase r = s :: others) :
    releaseShared m r h =
      some (if others = [] then dissolve (withdrawn m r h s) h s else withdrawn m r h s) := by
  have hheads : (leave m r h).heads h = s :: others := (update_self _ _ _).trans hrest
  unfold releaseShared
  dsimp only
  rw [hheads]
  rfl

/-- A sharer leaves, and the manager covers what it did. -/
theorem releaseShared_ok (hok : m.Ok) (hr : r ∈ m.heads h) :
    ∃ m', releaseShared m r h = some m' ∧ m'.Ok ∧ extent m'.ranges = extent m.ranges := by
  rcases hok.erase_eq hr with ⟨s, others, hrest, hs, hne⟩
  rcases withdrawn_ok hok.toCore hr hs hne with ⟨lead, hcore, hranges, hgroup, hheads⟩
  rw [hrest] at hheads
  have hone : (withdrawn m r h s).heads h = s :: others := by rw [hheads, update_self]
  have htwo' : ∀ h', h' ≠ h →
      (withdrawn m r h s).heads h' = [] ∨ 2 ≤ ((withdrawn m r h s).heads h').length := by
    intro h' heq
    rw [hheads, update_of_ne heq]
    exact hok.two h'
  rw [releaseShared_eq hrest]
  by_cases hnil : others = []
  · rw [if_pos hnil]
    rw [hnil] at hone
    rcases dissolve_ok hcore hgroup hone with ⟨hcore', hranges'⟩
    refine ⟨_, rfl, ⟨hcore', ?_⟩, by rw [hranges', hranges]⟩
    intro h'
    by_cases heq : h' = h
    · rw [heq]
      exact .inl (update_self _ _ _)
    have hsame : (dissolve (withdrawn m r h s) h s).heads h' = (withdrawn m r h s).heads h' :=
      update_of_ne heq _ _
    rw [hsame]
    exact htwo' h' heq
  rw [if_neg hnil]
  refine ⟨_, rfl, ⟨hcore, ?_⟩, by rw [hranges]⟩
  intro h'
  by_cases heq : h' = h
  · right
    rw [heq, hone, List.length_cons]
    have := List.length_pos_iff.mpr hnil
    omega
  · exact htwo' h' heq

/-- Releasing a resource keeps the invariant, and what the manager covers. -/
theorem releaseResource_ok (hok : m.Ok) (hheld : held m r = true) :
    ∃ m', releaseResource m r = some m' ∧ m'.Ok ∧ extent m'.ranges = extent m.ranges := by
  have hflags := setFlags_core hok.toCore (r := r) (f := (m.res r).rFlags &&& ~~~rfActive)
    (has_andNot _ (by decide)) (has_andNot _ (by decide)) (has_andNot _ (by decide))
  rcases hflags with ⟨hcore, hranges⟩
  have hok' : (m.setFlags r ((m.res r).rFlags &&& ~~~rfActive)).Ok := ⟨hcore, hok.two⟩
  have hhead : ((m.setFlags r ((m.res r).rFlags &&& ~~~rfActive)).res r).rSharehead =
      (m.res r).rSharehead := by
    simp [Manager.setFlags, Manager.put]
  unfold releaseResource
  dsimp only
  rw [hhead]
  cases hsome : (m.res r).rSharehead with
  | some h =>
    -- A sharer in the list of the manager is on its sharing list too.
    have hr : r ∈ m.heads h := by
      rw [held, hsome, Bool.and_eq_true, Bool.or_eq_true] at hheld
      rcases hheld.2 with hin | hin
      · exact hok.shared r (of_decide_eq_true hin) h hsome
      · exact of_decide_eq_true hin
    rcases releaseShared_ok hok' (r := r) hr with ⟨m', hrel, hok'', hcov⟩
    exact ⟨m', hrel, hok'', by rw [hcov, hranges]⟩
  | none =>
    have hr : r ∈ m.rmList := by
      rw [held, hsome, Bool.and_eq_true, Bool.or_eq_true] at hheld
      rcases hheld.2 with hin | hin
      · exact of_decide_eq_true hin
      · exact absurd hin Bool.false_ne_true
    rcases releasePlain_ok hok' (r := r) hr (hhead.trans hsome) with ⟨hok'', hcov⟩
    exact ⟨_, rfl, hok'', by rw [hcov, hranges]⟩

end Release

end FreeBSDKern.Rman
