import FreeBSDKern.Callout.Exact
import FreeBSDKern.Lib.Run

/-!
# Runs of the Callout Wheel

Callouts are armed, taken back and scanned for in any order, with times of scans
that never go back. The invariant of the wheel holds along every run whose scans
are safe, and with it what a callout is promised: it is handed on by the first
scan at or after its time, and the timer is programmed for a time at which it may
still run.

The condition cannot be dropped. `lookahead_skips` is a wheel of sixteen slots
and a scan one tick after the last one, so that the look-ahead of thirty-two
ticks goes around twice: a callout seventeen ticks ahead is found in the present
slot, ends the look-ahead, and hides one that is due in five.

## Main definitions

* `Op`: The operations.
* `Allowed`: What the callers owe, and that a scan is safe.

## Theorems

* `exec_keeps`: One operation keeps the invariant.
* `wheel_exact`: Scans after any safe run are exact.
* `lookahead_skips`: A run whose last scan is not.
-/

namespace FreeBSDKern.Callout

open Lib Function

inductive Op where
  | add (id : Nat) (sbt precision : Int)
  | remove (id : Nat)
  | process (now : Int)

def exec (k : Nat) (cc : CalloutCpu) : Op → Option CalloutCpu
  | .add id sbt precision => some (calloutCcAdd k cc id sbt precision)
  | .remove id => some (calloutRemove cc id)
  | .process now => calloutProcess k cc now

/-- A callout is armed only while it is not pending, with a time and a precision
    in range; the time of a scan does not go back. -/
def Owed (cc : CalloutCpu) : Op → Prop
  | .add id sbt precision => sbt ≤ sbtMax ∧ 0 ≤ precision ∧ ∀ c, Pending cc c → c.id ≠ id
  | .remove id => ∃ c, Pending cc c ∧ c.id = id
  | .process now => cc.lastscan ≤ now ∧ now ≤ sbtMax

def Allowed (k : Nat) (cc : CalloutCpu) (op : Op) : Prop :=
  Owed cc op ∧ ∀ now, op = .process now → Safe k cc now

variable {k : Nat} {cc : CalloutCpu}

theorem calloutCpuInit_ok (k : Nat) : WheelOk k calloutCpuInit := by
  have hnone : ∀ c, ¬ Pending calloutCpuInit c := fun c ⟨b, hb⟩ => nomatch hb
  exact ⟨⟨by decide, by decide⟩, fun b c hc => (nomatch hc), fun c hc => absurd hc (hnone c),
    fun b => List.nodup_nil, fun c _ hc => absurd hc (hnone c), fun c hc => absurd hc (hnone c)⟩

theorem wheel_calloutCcAdd (k : Nat) (cc : CalloutCpu) (id : Nat) (sbt precision : Int) :
    (calloutCcAdd k cc id sbt precision).wheel = update cc.wheel
        (calloutGetBucket k (clampEntry cc.lastscan id sbt precision).time)
        (clampEntry cc.lastscan id sbt precision :: cc.wheel
          (calloutGetBucket k (clampEntry cc.lastscan id sbt precision).time)) := by
  unfold calloutCcAdd
  dsimp only
  split
  all_goals rfl

theorem lastscan_calloutCcAdd (k : Nat) (cc : CalloutCpu) (id : Nat) (sbt precision : Int) :
    (calloutCcAdd k cc id sbt precision).lastscan = cc.lastscan := by
  unfold calloutCcAdd
  dsimp only
  split
  all_goals rfl

/-- Arming keeps the earlier of the two times. -/
theorem firstevent_calloutCcAdd (k : Nat) (cc : CalloutCpu) (id : Nat) (sbt precision : Int) :
    (calloutCcAdd k cc id sbt precision).firstevent ≤ cc.firstevent ∧
      (calloutCcAdd k cc id sbt precision).firstevent ≤
        (clampEntry cc.lastscan id sbt precision).latest := by
  unfold calloutCcAdd
  dsimp only
  split
  case isTrue h => exact ⟨by dsimp only; omega, Int.le_refl _⟩
  case isFalse h => exact ⟨Int.le_refl _, by dsimp only; omega⟩

theorem mem_calloutCcAdd (k : Nat) (cc : CalloutCpu) (id : Nat) (sbt precision : Int) (b : Nat)
    (d : Entry) : d ∈ (calloutCcAdd k cc id sbt precision).wheel b ↔
      (d = clampEntry cc.lastscan id sbt precision ∧ b = calloutGetBucket k d.time) ∨
        d ∈ cc.wheel b := by
  rw [wheel_calloutCcAdd]
  by_cases hb : b = calloutGetBucket k (clampEntry cc.lastscan id sbt precision).time
  · subst hb
    rw [update_self, List.mem_cons]
    constructor
    · rintro (rfl | hd)
      · exact .inl ⟨rfl, rfl⟩
      · exact .inr hd
    rintro (⟨rfl, -⟩ | hd)
    · exact .inl rfl
    · exact .inr hd
  rw [update_of_ne hb]
  constructor
  · exact .inr
  rintro (⟨rfl, hb'⟩ | hd)
  · exact absurd hb' hb
  · exact hd

theorem calloutCcAdd_ok (h : WheelOk k cc) (id : Nat) (sbt precision : Int)
    (howed : Owed cc (.add id sbt precision)) : WheelOk k (calloutCcAdd k cc id sbt precision) := by
  rcases howed with ⟨hsbt, hprec, hnew⟩
  have hmem := mem_calloutCcAdd k cc id sbt precision
  have hfirst := firstevent_calloutCcAdd k cc id sbt precision
  have hscan := h.scanned
  have hpend : ∀ d, Pending (calloutCcAdd k cc id sbt precision) d →
      d = clampEntry cc.lastscan id sbt precision ∨ Pending cc d := by
    rintro d ⟨b, hb⟩
    rcases (hmem b d).mp hb with ⟨hd, -⟩ | hd
    · exact .inl hd
    · exact .inr ⟨b, hd⟩
  have hid : (clampEntry cc.lastscan id sbt precision).id = id := rfl
  have hrange : cc.lastscan ≤ (clampEntry cc.lastscan id sbt precision).time ∧
      0 ≤ (clampEntry cc.lastscan id sbt precision).precision ∧
      (clampEntry cc.lastscan id sbt precision).time +
        (clampEntry cc.lastscan id sbt precision).precision ≤ sbtMax := by
    simp only [clampEntry]
    split
    all_goals
      split
      all_goals omega
  refine ⟨?_, fun b d hd => ?_, fun d hd => ?_, fun b => ?_, fun c d hc hd heq => ?_,
    fun d hd => ?_⟩
  · rw [lastscan_calloutCcAdd]
    exact hscan
  · rcases (hmem b d).mp hd with ⟨-, hb⟩ | hd'
    · exact hb
    · exact h.home b d hd'
  · rw [lastscan_calloutCcAdd]
    rcases hpend d hd with rfl | hd'
    · exact hrange
    · exact h.range d hd'
  · rw [wheel_calloutCcAdd]
    by_cases hb : b = calloutGetBucket k (clampEntry cc.lastscan id sbt precision).time
    · rw [hb, update_self, List.nodup_cons]
      exact ⟨fun hc => hnew _ ⟨_, hc⟩ hid, h.nodup _⟩
    · rw [update_of_ne hb]
      exact h.nodup b
  · rcases hpend c hc with rfl | hc'
    · rcases hpend d hd with rfl | hd'
      · rfl
      · exact absurd heq.symm (hnew d hd')
    rcases hpend d hd with rfl | hd'
    · exact absurd heq (hnew c hc')
    · exact h.single c d hc' hd' heq
  rcases hpend d hd with rfl | hd'
  · exact hfirst.2
  · exact Int.le_trans hfirst.1 (h.next d hd')

theorem calloutRemove_ok (h : WheelOk k cc) (id : Nat) : WheelOk k (calloutRemove cc id) := by
  have hpend : ∀ d, Pending (calloutRemove cc id) d → Pending cc d :=
    fun d ⟨b, hb⟩ => ⟨b, List.mem_of_mem_filter hb⟩
  exact ⟨h.scanned, fun b d hd => h.home b d (List.mem_of_mem_filter hd),
    fun d hd => h.range d (hpend d hd), fun b => List.Nodup.filter _ (h.nodup b),
    fun c d hc hd => h.single c d (hpend c hc) (hpend d hd), fun d hd => h.next d (hpend d hd)⟩

theorem exec_keeps (hk : k ≤ 31) (cc : CalloutCpu) (op : Op) (h : WheelOk k cc)
    (hallow : Allowed k cc op) : ∃ cc', exec k cc op = some cc' ∧ WheelOk k cc' := by
  cases op with
  | add id sbt precision => exact ⟨_, rfl, calloutCcAdd_ok h id sbt precision hallow.1⟩
  | remove id => exact ⟨_, rfl, calloutRemove_ok h id⟩
  | process now =>
    rcases calloutProcess_spec h hk hallow.1.1 hallow.1.2 (hallow.2 now rfl) with
      ⟨cc', -, hproc, -, -, -, -, hok⟩
    exact ⟨cc', hproc, hok⟩

/-- Along every run whose scans are safe, the next event is never later than a
    pending callout may run, and a safe scan hands on exactly the callouts that are
    due, each once. -/
theorem wheel_exact (k : Nat) (hk : k ≤ 31) (ops : List Op)
    (hallow : EveryStep (exec k) (Allowed k) calloutCpuInit ops) :
    ∃ cc, runOps (exec k) calloutCpuInit ops = some cc ∧
      (∀ c, Pending cc c → cc.firstevent ≤ c.time + c.precision) ∧
      ∀ now, cc.lastscan ≤ now → now ≤ sbtMax → Safe k cc now →
        ∃ cc' moved, calloutProcess k cc now = some cc' ∧ cc'.expireq = cc.expireq ++ moved ∧
          (moved.map Entry.id).Nodup ∧ (∀ c, c ∈ moved ↔ Pending cc c ∧ c.time ≤ now) ∧
          (∀ c, Pending cc' c ↔ Pending cc c ∧ now < c.time) ∧
          ∀ c, Pending cc' c → cc'.firstevent ≤ c.time + c.precision := by
  have hnext : ∀ cc, WheelOk k cc → ∀ c, Pending cc c → cc.firstevent ≤ c.time + c.precision := by
    intro cc h c hc
    rcases h.range c hc with ⟨hscan, hprec, hmax⟩
    have h0 := h.scanned.1
    rw [← latest_eq c (by omega) hmax]
    exact h.next c hc
  rcases runOps_progress_of (exec k) (Allowed k) (WheelOk k) (exec_keeps hk) ops calloutCpuInit
    (calloutCpuInit_ok k) hallow with ⟨cc, hrun, h⟩
  refine ⟨cc, hrun, hnext cc h, fun now hnow hmax hsafe => ?_⟩
  rcases calloutProcess_spec h hk hnow hmax hsafe with
    ⟨cc', moved, hproc, hq, hnodup, hmoved, hleft, hok⟩
  exact ⟨cc', moved, hproc, hq, hnodup, hmoved, hleft, hnext cc' hok⟩

/-- A wheel of 256 slots, scanned, armed and taken back from. -/
theorem wheel_exact_example : ∃ cc, runOps (exec 8) calloutCpuInit
        [.process (2 ^ 24), .add 1 (3 * 2 ^ 24) 5, .add 2 (2 ^ 32) 0, .remove 1] = some cc ∧
      ∀ c, Pending cc c → cc.firstevent ≤ c.time + c.precision := by
  have hsafe : Safe 8 calloutCpuInit (2 ^ 24) :=
    safe_of_fits (calloutCpuInit_ok 8) (by decide) (by decide) (by decide)
  have hempty : ∀ c, ¬ Pending calloutCpuInit c := fun c ⟨b, hb⟩ => nomatch hb
  rcases calloutProcess_spec (calloutCpuInit_ok 8) (by decide) (by decide) (by decide) hsafe with
    ⟨cc₁, moved, hproc, -, -, -, hleft, -⟩
  have hempty₁ : ∀ c, ¬ Pending cc₁ c := fun c hc => hempty c ((hleft c).mp hc).1
  have hone : ∀ c, Pending (calloutCcAdd 8 cc₁ 1 (3 * 2 ^ 24) 5) c → c.id = 1 := by
    rintro c ⟨b, hb⟩
    rcases (mem_calloutCcAdd _ _ _ _ _ b c).mp hb with ⟨rfl, -⟩ | hc
    · rfl
    · exact absurd ⟨b, hc⟩ (hempty₁ c)
  have hallow : EveryStep (exec 8) (Allowed 8) calloutCpuInit
      [.process (2 ^ 24), .add 1 (3 * 2 ^ 24) 5, .add 2 (2 ^ 32) 0, .remove 1] := by
    refine ⟨⟨⟨by decide, by decide⟩, fun now hnow => ?_⟩, fun s hs => ?_⟩
    · rw [← Op.process.inj hnow]
      exact hsafe
    -- The state after each step is the one worked out above.
    have heq : cc₁ = s := Option.some.inj (hproc.symm.trans hs)
    subst heq
    refine ⟨⟨⟨by decide, by decide, fun c hc => absurd hc (hempty₁ c)⟩, fun now hnow => nomatch
      hnow⟩, fun s hs => ?_⟩
    rw [← Option.some.inj hs]
    refine ⟨⟨⟨by decide, by decide, fun c hc => by rw [hone c hc]; decide⟩, fun now hnow =>
      nomatch hnow⟩, fun s hs => ?_⟩
    rw [← Option.some.inj hs]
    refine ⟨⟨⟨clampEntry cc₁.lastscan 1 (3 * 2 ^ 24) 5,
      ⟨calloutGetBucket 8 (clampEntry cc₁.lastscan 1 (3 * 2 ^ 24) 5).time, ?_⟩, rfl⟩,
      nofun⟩, fun s hs => trivial⟩
    exact (mem_calloutCcAdd _ _ _ _ _ _ _).mpr (.inr ((mem_calloutCcAdd _ _ _ _ _ _ _).mpr
      (.inl ⟨rfl, rfl⟩)))
  rcases wheel_exact 8 (by decide) _ hallow with ⟨cc, hrun, hnext, -⟩
  exact ⟨cc, hrun, hnext⟩

/-- With sixteen slots, callouts armed for ticks 17, 1 and 5 and a scan at tick 1:
    the first is met in the slot of the second, ends the look-ahead, and the third is
    due before the next event reported. -/
theorem lookahead_skips : ∃ cc c, runOps (exec 4) calloutCpuInit
        [.add 1 (17 * 2 ^ 24) 0, .add 2 (2 ^ 24 + 1) (9 * 2 ^ 24), .add 3 (5 * 2 ^ 24) 0,
          .process (2 ^ 24)] = some cc ∧
      Pending cc c ∧ 2 ^ 24 < c.time ∧ c.time + c.precision < cc.firstevent := by
  have hsome : (runOps (exec 4) calloutCpuInit
      [.add 1 (17 * 2 ^ 24) 0, .add 2 (2 ^ 24 + 1) (9 * 2 ^ 24), .add 3 (5 * 2 ^ 24) 0,
        .process (2 ^ 24)]).any (fun cc => decide ((⟨3, 5 * 2 ^ 24, 0⟩ : Entry) ∈ cc.wheel 5) &&
          decide (5 * 2 ^ 24 + 0 < cc.firstevent)) = true := by
    decide
  rcases (Option.any_eq_true _ _).mp hsome with ⟨cc, hrun, hcc⟩
  rw [Bool.and_eq_true, decide_eq_true_eq, decide_eq_true_eq] at hcc
  exact ⟨cc, ⟨3, 5 * 2 ^ 24, 0⟩, hrun, ⟨5, hcc.1⟩, by decide, hcc.2⟩

end FreeBSDKern.Callout
