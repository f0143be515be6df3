import FreeBSDKern.Rman.Holders
import FreeBSDKern.Rman.Honour

/-!
# Reserving and Releasing

A list in which no two free entries touch is known from what it covers and from its
allocated entries, and these have the bounds of what is held. So once all that was
reserved has been released, in whatever order and with whatever sharing in between, the
list is what it was before.

This needs the requests not to be moved beyond the last word. A request that is moved there
leaves a list that covers something else.

## Main definitions

* `Desk`: A manager, with what it gave out.
* `Since`: What is so after any calls.

## Theorems

* `exec_since`: One call.
* `release_undoes`: The list after any calls, and after all is released.
* `release_loses`: A request that is moved beyond the last word.
-/

namespace FreeBSDKern.Rman

open Lib

/-- A manager, with the resources it gave out and has not got back, and their bounds when
    they were given. -/
structure Desk where
  m : Manager
  out : List (Nat × (Nat × Nat))

inductive Call where
  | reserve (start end' count bound : UInt64) (flags : Flags) (nowait nowait' : Bool)
  | release (r : Nat)

/-- A call. Only what was given out is released. -/
def Desk.exec (s : Desk) : Call → Option Desk
  | .reserve start end' count bound flags nowait nowait' =>
    (reserveResourceBound s.m ⟨start.toNat, end'.toNat, count.toNat, bound.toNat, flags⟩ nowait
      nowait').map (fun r => ⟨r.1, match r.2 with
        | none => s.out
        | some i => (i, r.1.range i) :: s.out⟩)
  | .release r =>
    if r ∈ s.out.map Prod.fst then
      (releaseResource s.m r).map (fun m => ⟨m, s.out.filter (fun p => p.1 ≠ r)⟩)
    else none

/-- A request is not moved beyond the last word. -/
def CallOk (s : Desk) : Call → Prop
  | .reserve start end' count bound flags _ _ =>
    ReserveOk s.m ⟨start.toNat, end'.toNat, count.toNat, bound.toNat, flags⟩
  | .release _ => True

instance CallOk.decidable (s : Desk) : ∀ call, Decidable (CallOk s call)
  | .reserve .. => inferInstanceAs (Decidable (∀ s ∈ _, _ → _ → _ ∧ _))
  | .release _ => inferInstanceAs (Decidable True)

/-- What is so after any calls to a manager that was `m` before. -/
structure Since (m : Manager) (s : Desk) : Prop where
  ok : s.m.Ok
  tidy : Tidy (marks s.m)
  extent : Lib.extent s.m.ranges = Lib.extent m.ranges
  holds : ∀ j, Holds s.m j ↔ Holds m j ∨ j ∈ s.out.map Prod.fst
  apart : ∀ p ∈ s.out, ¬Holds m p.1
  range : ∀ p ∈ s.out, s.m.range p.1 = p.2
  same : ∀ j, Holds m j → s.m.range j = m.range j

variable {m : Manager} {s s' : Desk}

theorem held_of_holds (hok : m.Core) {r : Nat} (h : Holds m r) : held m r = true := by
  rcases h with ⟨halloc, hr | ⟨h, hr⟩⟩
  · rw [held, halloc, decide_eq_true hr]
    rfl
  rcases hok.group hr with ⟨lead, hg⟩
  rw [held, halloc, hg.head r hr]
  dsimp only
  rw [decide_eq_true hr, Bool.or_true]
  rfl

/-- A request that is granted. -/
theorem Since.granted (h : Since m s) {m' : Manager} {i : Nat} (hok : m'.Ok)
    (hcov : Lib.extent m'.ranges = Lib.extent s.m.ranges) (hg : Granted s.m m' i) :
    Since m ⟨m', (i, m'.range i) :: s.out⟩ := by
  have hout : ∀ p ∈ s.out, Holds s.m p.1 := fun p hp =>
    (h.holds p.1).mpr (Or.inr (List.mem_map_of_mem hp))
  refine ⟨hok, hg.tidy h.tidy, hcov.trans h.extent, fun j => ?_, ?_, ?_, fun j hj => ?_⟩
  · rw [hg.holds, h.holds, List.map_cons, List.mem_cons, or_assoc]
    exact or_congr_right Or.comm
  · rintro p hp
    rcases List.mem_cons.mp hp with rfl | hp
    · exact fun hold => hg.new ((h.holds i).mpr (Or.inl hold))
    · exact h.apart p hp
  · intro p hp
    rcases List.mem_cons.mp hp with rfl | hp
    · rfl
    dsimp only
    rw [hg.same p.1 (hout p hp)]
    exact h.range p hp
  dsimp only
  rw [hg.same j ((h.holds j).mpr (Or.inl hj))]
  exact h.same j hj

/-- A resource that is given back. -/
theorem Since.returned (h : Since m s) {m' : Manager} {r : Nat} (hok : m'.Ok)
    (hcov : Lib.extent m'.ranges = Lib.extent s.m.ranges) (hr : r ∈ s.out.map Prod.fst)
    (hret : Returned s.m m' r) : Since m ⟨m', s.out.filter (fun p => p.1 ≠ r)⟩ := by
  rcases List.mem_map.mp hr with ⟨p₀, hp₀, rfl⟩
  have hne : ∀ j, Holds m j → j ≠ p₀.1 := by
    rintro j hj rfl
    exact h.apart p₀ hp₀ hj
  have hmem : ∀ p, p ∈ s.out.filter (fun p => p.1 ≠ p₀.1) ↔ p ∈ s.out ∧ p.1 ≠ p₀.1 := by
    intro p
    rw [List.mem_filter, decide_eq_true_eq]
  refine ⟨hok, hret.tidy h.tidy, hcov.trans h.extent, fun j => ?_, ?_, ?_, fun j hj => ?_⟩
  · rw [hret.holds, h.holds]
    constructor
    · rintro ⟨hj | hj, hjr⟩
      · exact Or.inl hj
      · rcases List.mem_map.mp hj with ⟨p, hp, rfl⟩
        exact Or.inr (List.mem_map_of_mem ((hmem p).mpr ⟨hp, hjr⟩))
    rintro (hj | hj)
    · exact ⟨Or.inl hj, hne j hj⟩
    · rcases List.mem_map.mp hj with ⟨p, hp, rfl⟩
      exact ⟨Or.inr (List.mem_map_of_mem ((hmem p).mp hp).1), ((hmem p).mp hp).2⟩
  · exact fun p hp => h.apart p ((hmem p).mp hp).1
  · intro p hp
    rcases (hmem p).mp hp with ⟨hin, hpr⟩
    dsimp only
    rw [hret.same p.1 ((h.holds p.1).mpr (Or.inr (List.mem_map_of_mem hin))) hpr]
    exact h.range p hin
  dsimp only
  rw [hret.same j ((h.holds j).mpr (Or.inl hj)) (hne j hj)]
  exact h.same j hj

theorem exec_since {call : Call} (h : Since m s) (hcond : CallOk s call)
    (hexec : s.exec call = some s') : Since m s' := by
  cases call with
  | reserve start end' count bound flags nowait nowait' =>
    rw [Desk.exec, Option.map_eq_some_iff] at hexec
    rcases hexec with ⟨r, hres, rfl⟩
    have hw := words_toNat start end' count bound flags
    rcases reserveResourceBound_ok h.ok hw hcond hres with ⟨hok, hcov⟩
    have hgranted := reserve_granted h.ok.toCore hw hcond hres
    rcases r with ⟨m', _ | i⟩
    · dsimp only at hgranted ⊢
      rw [hgranted]
      exact h
    · exact h.granted hok hcov hgranted
  | release r =>
    rw [Desk.exec] at hexec
    split at hexec
    case isFalse => cases hexec
    case isTrue hr =>
    rw [Option.map_eq_some_iff] at hexec
    rcases hexec with ⟨m', hrel, rfl⟩
    have hhold : Holds s.m r := (h.holds r).mpr (Or.inr hr)
    rcases releaseResource_ok h.ok (held_of_holds h.ok.toCore hhold) with
      ⟨m'', hrel', hok, hcov⟩
    rw [hrel, Option.some.injEq] at hrel'
    rw [← hrel'] at hok hcov
    exact h.returned hok hcov hr (release_returned h.ok hhold hrel)

/-- The allocated entries after any calls: those that were allocated before, and those
    somebody still has. -/
theorem Since.marked (hok : m.Core) (h : Since m s) (r : Nat × Nat) :
    (r, true) ∈ marks s.m ↔ (r, true) ∈ marks m ∨ ∃ i, (i, r) ∈ s.out := by
  rw [marked_iff h.ok.toCore, marked_iff hok]
  constructor
  · rintro ⟨i, hold, rfl⟩
    rcases (h.holds i).mp hold with hold | hin
    · exact Or.inl ⟨i, hold, (h.same i hold).symm⟩
    rcases List.mem_map.mp hin with ⟨p, hp, rfl⟩
    refine Or.inr ⟨p.1, ?_⟩
    rw [h.range p hp]
    exact hp
  rintro (⟨i, hold, rfl⟩ | ⟨i, hin⟩)
  · exact ⟨i, (h.holds i).mpr (Or.inl hold), h.same i hold⟩
  · exact ⟨i, (h.holds i).mpr (Or.inr (List.mem_map_of_mem hin)), h.range _ hin⟩

/-- Once all is released the list is what it was. -/
theorem Since.restored (hok : m.Core) (htidy : Tidy (marks m)) (h : Since m s) (hout : s.out = []) :
    marks s.m = marks m := by
  refine h.tidy.ext_of htidy ?_ (fun r => ?_)
  · rw [marks_ranges, marks_ranges]
    exact h.extent
  · rw [h.marked hok, hout]
    exact ⟨fun hr => hr.resolve_right (fun ⟨i, hi⟩ => List.not_mem_nil hi), Or.inl⟩

theorem since_start (hok : m.Ok) (htidy : Tidy (marks m)) : Since m ⟨m, []⟩ where
  ok := hok
  tidy := htidy
  extent := rfl
  holds := fun _ => ⟨Or.inl, fun h => h.resolve_right List.not_mem_nil⟩
  apart := fun _ hp => absurd hp List.not_mem_nil
  range := fun _ hp => absurd hp List.not_mem_nil
  same := fun _ _ => rfl

/-- For every list as it should be in which no two free entries touch. What is reserved, in
    a request that is not moved beyond the last word, and then released leaves the list as
    it was. After any calls whose requests are not the allocated entries are those that
    were allocated before and those that somebody has a resource of, and once all is
    released the list is what it was. -/
theorem release_undoes (m : Manager) (hok : m.Ok)
    (hapart : (marks m).IsChain (fun a b => ¬Joins a b)) :
    (∀ (q : Request), q.Words → ReserveOk m q → ∀ nowait nowait' m' i,
      reserveResourceBound m q nowait nowait' = some (m', some i) →
        ∃ m'', releaseResource m' i = some m'' ∧ marks m'' = marks m) ∧
    ∀ calls s, EveryStep Desk.exec CallOk ⟨m, []⟩ calls → runOps Desk.exec ⟨m, []⟩ calls = some s →
        (∀ r, (r, true) ∈ marks s.m ↔ (r, true) ∈ marks m ∨ ∃ i, (i, r) ∈ s.out) ∧
        (s.out = [] → marks s.m = marks m) := by
  have htidy := Tidy.of_chain hok.toCore hapart
  constructor
  · intro q hw hcond nowait nowait' m' i hres
    rcases reserveResourceBound_ok hok hw hcond hres with ⟨hok', hcov⟩
    have hgranted : Granted m m' i := reserve_granted hok.toCore hw hcond hres
    have hsince := (since_start hok htidy).granted hok' hcov hgranted
    have hhold : Holds m' i := (hgranted.holds i).mpr (Or.inr rfl)
    rcases releaseResource_ok hok' (held_of_holds hok'.toCore hhold) with ⟨m'', hrel, hok'', hcov'⟩
    refine ⟨m'', hrel, ?_⟩
    refine (hsince.returned hok'' hcov' List.mem_cons_self
      (release_returned hok' hhold hrel)).restored hok.toCore htidy ?_
    simp
  intro calls s hcond hrun
  have hsince := runOps_invariant_of Desk.exec CallOk (Since m)
    (fun _ _ _ h hcond hexec => exec_since h hcond hexec) calls _ s (since_start hok htidy) hcond hrun
  exact ⟨hsince.marked hok.toCore, hsince.restored hok.toCore htidy⟩

/-- Two reservations of the same range, shared, and one in the middle of the rest. -/
def exampleCalls : List Call :=
  [.reserve 0 15 16 0 rfShareable true true, .reserve 0 15 16 0 rfShareable true true,
    .reserve 0 0xffff 32 64 (5#32 <<< 10) true true, .release 1, .release 3, .release 2]

theorem release_undoes_shared : ∃ s,
    EveryStep Desk.exec CallOk ⟨oneRegion 0xffff, []⟩ exampleCalls ∧
      runOps Desk.exec ⟨oneRegion 0xffff, []⟩ exampleCalls = some s ∧
      marks s.m = marks (oneRegion 0xffff) := by
  have hcond : EveryStep Desk.exec CallOk ⟨oneRegion 0xffff, []⟩ exampleCalls := by decide
  have hempty : (runOps Desk.exec ⟨oneRegion 0xffff, []⟩ exampleCalls).map Desk.out = some [] := by
    decide
  rcases Option.map_eq_some_iff.mp hempty with ⟨s, hrun, hout⟩
  have hapart : (marks (oneRegion 0xffff)).IsChain (fun a b => ¬Joins a b) :=
    List.isChain_singleton _
  exact ⟨s, hcond, hrun, ((release_undoes (oneRegion 0xffff) (oneRegion_ok 0xffff (by decide))
    hapart).2 exampleCalls s hcond hrun).2 hout⟩

/-- A region up to the last word but one, and a request that does not fit in the last block
    of its boundary and is moved to zero. After its release the region ends at 99. -/
theorem release_loses : ∃ m : Manager, m.Ok ∧ (marks m).IsChain (fun a b => ¬Joins a b) ∧
      ∃ m' i m'', reserveResourceBound m ⟨0xfffffffffffffff5, 0xfffffffffffffffe, 100, 4096, 0#32⟩
          true true = some (m', some i) ∧
        releaseResource m' i = some m'' ∧ marks m'' ≠ marks m := by
  have hrun : ((reserveResourceBound (manageRegion (rmanInit 0 0) 50 0xfffffffffffffffe true).1
      ⟨0xfffffffffffffff5, 0xfffffffffffffffe, 100, 4096, 0#32⟩ true true).bind (fun r =>
        r.2.bind (fun i => (releaseResource r.1 i).map marks))) = some [((50, 99), false)] := by
    decide
  refine ⟨(manageRegion (rmanInit 0 0) 50 0xfffffffffffffffe true).1, ?_,
    List.isChain_singleton _, ?_⟩
  · exact (manageRegion_ok (init_ok 0 0).ok ⟨by decide, nofun⟩ (by decide)
      true).1
  rcases Option.bind_eq_some_iff.mp hrun with ⟨⟨m', r⟩, hres, hrest⟩
  rcases Option.bind_eq_some_iff.mp hrest with ⟨i, hi, hrel⟩
  rcases Option.map_eq_some_iff.mp hrel with ⟨m'', hrel', hmarks⟩
  dsimp only at hi hrel'
  subst hi
  refine ⟨m', i, m'', hres, hrel', ?_⟩
  rw [hmarks]
  decide

end FreeBSDKern.Rman
