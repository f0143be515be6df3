import FreeBSDKern.Rman.Manage
import FreeBSDKern.Rman.Reserve

/-!
# Runs of a Manager

What the list of a manager should be after any calls, failing ones among them: its
entries lie one behind the other, and together they are the regions that the manager
was given. It is so as long as no step is one of the following, and each of them can
break the list.

* A region from zero on is merged with a free region that ends at the last word,
  where the sum `r_end + 1` is zero.
* A resource is adjusted into a free neighbour that does not touch it, or to an end
  before its start.
* A request for nothing finds a free region, or a request is moved beyond the last
  word.

Some of these are assertions of the source, which the kernel does not check unless it
is built with them.

## Main definitions

* `StepOk`: No step of this kind.

## Theorems

* `exec_ok`: What one step keeps.
* `list_tiles`: The list in every run without such steps.
* `list_breaks`: Runs with such steps.
-/

namespace FreeBSDKern.Rman

open Lib

/-- The checks that a region passes before it gets to the list. -/
def regionChecked (m : Manager) (start end' : Nat) (nowait : Bool) : Bool :=
  m.rmStart ≤ start ∧ end' ≤ m.rmEnd ∧ nowait = true

/-- The checks that an adjustment passes before it changes anything. -/
def adjustChecked (m : Manager) (r start end' : Nat) : Bool :=
  has (m.res r).rFlags rfShareable = false ∧ (m.res r).rStart ≤ end' ∧ start ≤ (m.res r).rEnd ∧
    ¬(start < (m.res r).rStart ∧
      (freeNeighbour m (prev? m.rmList r)).all (fun s => (m.res s).rStart > start)) ∧
    ¬(end' > (m.res r).rEnd ∧
      (freeNeighbour m (next? m.rmList r)).all (fun t => (m.res t).rEnd < end'))

/-- A step that does not break the list. -/
def StepOk (s : Session) : Op → Prop
  | .manage start end' nowait =>
    start.toNat ≤ end'.toNat ∧ (regionChecked s.m start.toNat end'.toNat nowait = true →
        ManageOk s.m start.toNat end'.toNat)
  | .adjust r start end' =>
    adjustChecked s.m r start.toNat end'.toNat = true → AdjustOk s.m r start.toNat end'.toNat
  | .reserve start end' count bound flags _ _ =>
    ReserveOk s.m ⟨start.toNat, end'.toNat, count.toNat, bound.toNat, flags⟩
  | .release _ => True

instance StepOk.decidable (s : Session) : ∀ op, Decidable (StepOk s op)
  | .manage .. => inferInstanceAs (Decidable (_ ∧ (_ → _ ∧ _)))
  | .adjust .. => inferInstanceAs (Decidable (_ → _ ∧ _ ∧ _))
  | .reserve .. => inferInstanceAs (Decidable (∀ s ∈ _, _ → _ → _ ∧ _))
  | .release _ => inferInstanceAs (Decidable True)

/-- The invariant of a session: the list covers what the manager was given. -/
structure Session.Ok (s : Session) : Prop where
  ok : s.m.Ok
  extent : Lib.extent s.m.ranges = Lib.extent s.managed

theorem toNat_lt_wordSize (x : UInt64) : x.toNat < wordSize := x.toNat_lt

theorem words_toNat (start end' count bound : UInt64) (flags : Flags) :
    Request.Words ⟨start.toNat, end'.toNat, count.toNat, bound.toNat, flags⟩ :=
  ⟨start.toNat_lt, end'.toNat_lt, count.toNat_lt, bound.toNat_lt⟩

section Steps

variable {m : Manager}

/-- A region that does not pass the checks leaves the list alone. -/
theorem manageRegion_unchecked {start end' : Nat} {nowait : Bool}
    (h : regionChecked m start end' nowait = false) :
    ∃ e, manageRegion m start end' nowait = (m, some e) := by
  have hnot := of_decide_eq_false h
  unfold manageRegion
  by_cases hbounds : start < m.rmStart ∨ end' > m.rmEnd
  · exact ⟨.einval, if_pos hbounds⟩
  rw [if_neg hbounds]
  cases nowait with
  | false => exact ⟨.enomem, rfl⟩
  | true => exact absurd ⟨by omega, by omega, rfl⟩ hnot

theorem adjustResource_unchecked {r start end' : Nat}
    (h : adjustChecked m r start end' = false) : (adjustResource m r start end').1 = m := by
  have hnot := of_decide_eq_false h
  unfold adjustResource
  dsimp only
  split
  case isTrue => rfl
  case isFalse hshare =>
  split
  case isTrue => rfl
  case isFalse hover =>
  split
  case isTrue => rfl
  case isFalse hgrow =>
  split
  case isTrue => rfl
  case isFalse hgrow' =>
    exact absurd
      ⟨Bool.eq_false_iff.mpr hshare, by omega, by omega, hgrow, hgrow'⟩ hnot

end Steps

theorem exec_ok {s s' : Session} {op : Op} (hok : s.Ok) (hcond : StepOk s op)
    (h : s.exec op = some s') : s'.Ok := by
  cases op with
  | manage start end' nowait =>
    rcases hcond with ⟨-, hcond⟩
    rw [Session.exec, Option.some.injEq] at h
    rw [← h]
    cases hcheck : regionChecked s.m start.toNat end'.toNat nowait with
    | false =>
      rcases manageRegion_unchecked hcheck with ⟨e, hfail⟩
      rw [hfail]
      exact ⟨hok.ok, hok.extent⟩
    | true =>
      rcases manageRegion_ok hok.ok (hcond hcheck) (toNat_lt_wordSize end') nowait with
        ⟨hok', hcov⟩
      refine ⟨hok', hcov.trans ?_⟩
      rw [hok.extent]
      split
      case isTrue => exact (extent_append _ _).symm
      case isFalse => exact Set.union_empty _
  | adjust r start end' =>
    rw [Session.exec] at h
    split at h
    case isFalse => cases h
    case isTrue hheld =>
    rw [Option.some.injEq] at h
    rw [← h]
    cases hcheck : adjustChecked s.m r start.toNat end'.toNat with
    | false =>
      rw [adjustResource_unchecked hcheck]
      exact hok
    | true =>
      rcases adjustResource_ok hok.ok hheld (hcond hcheck) with ⟨hok', hcov⟩
      exact ⟨hok', hcov.trans hok.extent⟩
  | reserve start end' count bound flags nowait nowait' =>
    rw [Session.exec, Option.map_eq_some_iff] at h
    rcases h with ⟨r, hres, rfl⟩
    have hw := words_toNat start end' count bound flags
    rcases reserveResourceBound_ok hok.ok hw hcond hres with ⟨hok', hcov⟩
    exact ⟨hok', hcov.trans hok.extent⟩
  | release r =>
    rw [Session.exec] at h
    split at h
    case isFalse => cases h
    case isTrue hheld =>
    rw [Option.map_eq_some_iff] at h
    rcases h with ⟨m', hrel, rfl⟩
    rcases releaseResource_ok hok.ok hheld with ⟨m'', hrel', hok', hcov⟩
    rw [hrel, Option.some.injEq] at hrel'
    rw [← hrel'] at hok' hcov
    exact ⟨hok', hcov.trans hok.extent⟩

theorem init_ok (rmStart rmEnd : UInt64) : (Session.init rmStart rmEnd).Ok where
  ok :=
    { nodup := List.nodup_nil
      fresh := by simp [Session.init, rmanInit]
      ranges := ranges_nil
      word := by simp [Session.init, rmanInit]
      groups := fun _ => .inl rfl
      shared := by simp [Session.init, rmanInit]
      freshHead := fun _ _ => rfl
      two := fun _ => .inl rfl }
  extent := rfl

/-- The list of a manager after any calls: the entries lie one behind the other, and
    they cover the regions that the manager was given. -/
theorem list_tiles (rmStart rmEnd : UInt64) (ops : List Op) (s : Session)
    (hcond : EveryStep Session.exec StepOk (Session.init rmStart rmEnd) ops)
    (h : runOps Session.exec (Session.init rmStart rmEnd) ops = some s) :
    Ranges s.m.ranges ∧ extent s.m.ranges = extent s.managed := by
  have hok := runOps_invariant_of Session.exec StepOk Session.Ok
    (fun _ _ _ hok hcond h => exec_ok hok hcond h) ops _ s (init_ok rmStart rmEnd) hcond h
  exact ⟨hok.ok.ranges, hok.extent⟩

/-- A run of two regions with a hole between them, a shared resource and one with a
    boundary. -/
def exampleOps : List Op :=
  [.manage 0 99 true, .manage 200 0xffffffffffffffff true,
    .reserve 0 99 16 0 rfShareable true true, .reserve 0 15 16 0 rfShareable true true,
    .reserve 300 999 32 64 (4#32 <<< 10) true true, .adjust 4 310 330, .release 2,
    .manage 100 149 true]

theorem list_tiles_example : ∃ s, EveryStep Session.exec StepOk (Session.init 0 0) exampleOps ∧
      runOps Session.exec (Session.init 0 0) exampleOps = some s ∧
      Ranges s.m.ranges ∧ extent s.m.ranges = extent s.managed := by
  have hsome : (runOps Session.exec (Session.init 0 0) exampleOps).isSome = true := by
    decide
  have hcond : EveryStep Session.exec StepOk (Session.init 0 0) exampleOps := by decide
  rcases Option.isSome_iff_exists.mp hsome with ⟨s, hrun⟩
  exact ⟨s, hcond, hrun, list_tiles 0 0 exampleOps s hcond hrun⟩

/-- Three runs that break the list. A region from zero on is merged with one that ends
    at the last word, and the entry ends before it starts. A resource is adjusted over
    the hole before it, which is then covered. A request does not fit in the last block
    of its boundary and is moved to zero, where nothing was managed. -/
theorem list_breaks : (∃ s, runOps Session.exec (Session.init 0 0)
        [.manage 10 0xffffffffffffffff true, .manage 0 5 true] = some s ∧ ¬Ranges s.m.ranges) ∧
    (∃ s, runOps Session.exec (Session.init 0 0)
        [.manage 0 9 true, .manage 20 29 true, .reserve 20 29 5 0 0#32 true true,
          .adjust 2 5 24] = some s ∧ extent s.m.ranges ≠ extent s.managed) ∧
    ∃ s, runOps Session.exec (Session.init 0 0)
        [.manage 50 0xfffffffffffffffe true,
          .reserve 0xfffffffffffffff5 0xfffffffffffffffe 100 4096 0#32 true true] = some s ∧
      ¬Ranges s.m.ranges := by
  have hmanage : (runOps Session.exec (Session.init 0 0)
      [.manage 10 0xffffffffffffffff true, .manage 0 5 true]).map (fun s => s.m.ranges) =
        some [(10, 5)] := by decide
  have hadjust : (runOps Session.exec (Session.init 0 0)
      [.manage 0 9 true, .manage 20 29 true, .reserve 20 29 5 0 0#32 true true,
        .adjust 2 5 24]).map (fun s => (s.m.ranges, s.managed)) =
        some ([(0, 4), (5, 24), (25, 29)], [(0, 9), (20, 29)]) := by decide
  have hreserve : (runOps Session.exec (Session.init 0 0)
      [.manage 50 0xfffffffffffffffe true,
        .reserve 0xfffffffffffffff5 0xfffffffffffffffe 100 4096 0#32 true true]).map
          (fun s => s.m.ranges) = some [(50, ulongMax), (0, 99)] := by decide
  refine ⟨?_, ?_, ?_⟩
  · rcases Option.map_eq_some_iff.mp hmanage with ⟨s, hrun, hranges⟩
    refine ⟨s, hrun, fun hr => ?_⟩
    rw [hranges] at hr
    exact absurd (hr.nonempty (10, 5) (by simp)) (by decide)
  · rcases Option.map_eq_some_iff.mp hadjust with ⟨s, hrun, hboth⟩
    refine ⟨s, hrun, fun heq => ?_⟩
    rw [Prod.mk.injEq] at hboth
    rw [hboth.1, hboth.2] at heq
    have hin : 12 ∈ extent [(0, 9), (20, 29)] := by
      rw [← heq]
      simp
    simp at hin
  rcases Option.map_eq_some_iff.mp hreserve with ⟨s, hrun, hranges⟩
  refine ⟨s, hrun, fun hr => ?_⟩
  rw [hranges] at hr
  exact absurd hr.order (by decide)

end FreeBSDKern.Rman
