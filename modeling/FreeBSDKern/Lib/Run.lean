import Mathlib

/-!
# Runs of an Operation Sequence

What every store in this development is asked for: a property that holds
after any sequence of its operations, from a known first state.

An operation is a partial function on states. `none` is the run that stops
(a panic, a refused call), so a sequence is a monadic fold in `Option` and
`runOps` is only a name for it. Two rules come with it. `runOps_invariant`
carries a property of states along a run, and `runOps_simulation` carries a
relation between two stores: whenever the specification admits a sequence, the
implementation completes it and ends in a related state. The second is stated
for progress as well as for agreement, since an implementation that stopped
would satisfy any statement about the states it reaches. `EveryStep` restricts
a run to steps that meet a condition on the state they are taken in, and
`runOps_simulation_of` is the second rule for such runs.

## Main definitions

* `runOps`: The state after a sequence of operations, if none of them stops.
* `EveryStep`: Every step of a run meets a condition on the state before it.

## Theorems

* `runOps_invariant`: A preserved property holds at the end of every run.
* `runOps_invariant_of`: The same for runs whose steps all meet a condition.
* `everyStep_append`: A condition on the steps of the parts of a sequence.
* `runOps_simulation_of`: A specification run whose steps all meet the
  condition is completed by the implementation.
* `runOps_simulation`: The same without a condition.
* `runOps_progress_of`: The same without a specification.
-/

namespace FreeBSDKern.Lib

variable {σ τ ι : Type*}

/-- Run a sequence of operations, stopping with `none` where one of them
    does. -/
def runOps (exec : σ → ι → Option σ) : σ → List ι → Option σ
  | s, [] => some s
  | s, a :: as => match exec s a with
    | none => none
    | some s' => runOps exec s' as

variable (exec : σ → ι → Option σ) (C : σ → ι → Prop) (P : σ → Prop)

@[simp] theorem runOps_nil (s : σ) : runOps exec s [] = some s := rfl

theorem runOps_cons (s : σ) (a : ι) (as : List ι) :
    runOps exec s (a :: as) = (exec s a).bind (fun s' => runOps exec s' as) := by
  simp only [runOps]
  cases exec s a with
  | none => rfl
  | some s' => rfl

/-- A property every operation preserves holds at the end of every run. -/
theorem runOps_invariant (hstep : ∀ s a s', P s → exec s a = some s' → P s') :
    ∀ (as : List ι) (s t : σ), P s → runOps exec s as = some t → P t := by
  intro as
  induction as with
  | nil =>
    intro s t hs h
    simp only [runOps_nil, Option.some.injEq] at h
    rwa [← h]
  | cons a as ih =>
    intro s t hs h
    rw [runOps_cons, Option.bind_eq_some_iff] at h
    rcases h with ⟨s', hexec, hrest⟩
    exact ih s' t (hstep s a s' hs hexec) hrest

/-- Every step of the run meets a condition on the state it is taken in. -/
def EveryStep (exec : σ → ι → Option σ) (C : σ → ι → Prop) : σ → List ι → Prop
  | _, [] => True
  | s, a :: as => C s a ∧ ∀ s' ∈ exec s a, EveryStep exec C s' as

instance EveryStep.decidable (exec : σ → ι → Option σ) (C : σ → ι → Prop)
    [∀ s a, Decidable (C s a)] : ∀ (s : σ) (as : List ι), Decidable (EveryStep exec C s as)
  | _, [] => isTrue trivial
  | s, a :: as =>
    have : ∀ s', Decidable (EveryStep exec C s' as) := fun s' => EveryStep.decidable exec C s' as
    inferInstanceAs (Decidable (C s a ∧ ∀ s' ∈ exec s a, EveryStep exec C s' as))

theorem runOps_invariant_of (hstep : ∀ s a s', P s → C s a → exec s a = some s' → P s') :
    ∀ (as : List ι) (s t : σ), P s → EveryStep exec C s as → runOps exec s as = some t → P t := by
  intro as
  induction as with
  | nil =>
    intro s t hs _ h
    simp only [runOps_nil, Option.some.injEq] at h
    rwa [← h]
  | cons a as ih =>
    intro s t hs hC h
    rw [runOps_cons, Option.bind_eq_some_iff] at h
    rcases h with ⟨s', hexec, hrest⟩
    exact ih s' t (hstep s a s' hs hC.1 hexec) (hC.2 s' hexec) hrest

theorem everyStep_of_forall (h : ∀ s a, C s a) :
    ∀ (as : List ι) (s : σ), EveryStep exec C s as := by
  intro as
  induction as with
  | nil => intro s; trivial
  | cons a as ih => intro s; exact ⟨h s a, fun s' _ => ih s'⟩

/-- The steps of a sequence that is run one part after the other. -/
theorem everyStep_append (bs : List ι) :
    ∀ (as : List ι) (s t : σ), EveryStep exec C s (as ++ bs) → runOps exec s as = some t →
      EveryStep exec C s as ∧ EveryStep exec C t bs := by
  intro as
  induction as with
  | nil =>
    intro s t hC h
    simp only [runOps_nil, Option.some.injEq] at h
    rw [← h]
    exact ⟨trivial, hC⟩
  | cons a as ih =>
    intro s t hC h
    rw [runOps_cons, Option.bind_eq_some_iff] at h
    rcases h with ⟨s', hexec, hrest⟩
    rcases ih s' t (hC.2 s' hexec) hrest with ⟨hfirst, hlast⟩
    refine ⟨⟨hC.1, fun s'' hexec' => ?_⟩, hlast⟩
    rw [← Option.some.inj (hexec.symm.trans hexec')]
    exact hfirst

/-- A condition on the operations alone. -/
theorem everyStep_of_mem (C : ι → Prop) :
    ∀ (as : List ι) (s : σ), (∀ a ∈ as, C a) → EveryStep exec (fun _ a => C a) s as := by
  intro as
  induction as with
  | nil => intro s _; trivial
  | cons a as ih =>
    intro s h
    exact ⟨h a List.mem_cons_self, fun s' _ => ih s' (fun b hb => h b (List.mem_cons_of_mem a hb))⟩

/-- Whenever the specification completes a sequence and the implementation's
    steps all meet the condition, the implementation completes it too, and the
    two end related. -/
theorem runOps_simulation_of (spec : τ → ι → Option τ) (C : σ → ι → Prop) (R : σ → τ → Prop)
    (hstep : ∀ s t a t', R s t → C s a → spec t a = some t' → ∃ s', exec s a = some s' ∧ R s' t') :
    ∀ (as : List ι) (s : σ) (t t' : τ), R s t → EveryStep exec C s as →
      runOps spec t as = some t' → ∃ s', runOps exec s as = some s' ∧ R s' t' := by
  intro as
  induction as with
  | nil =>
    intro s t t' hR _ h
    simp only [runOps_nil, Option.some.injEq] at h
    exact ⟨s, rfl, h ▸ hR⟩
  | cons a as ih =>
    intro s t t' hR hC h
    rw [runOps_cons, Option.bind_eq_some_iff] at h
    rcases h with ⟨t₁, hspec, hrest⟩
    rcases hstep s t a t₁ hR hC.1 hspec with ⟨s₁, hexec, hR₁⟩
    rcases ih s₁ t₁ t' hR₁ (hC.2 s₁ hexec) hrest with ⟨s', hrun, hR'⟩
    exact ⟨s', by rw [runOps_cons, hexec]; exact hrun, hR'⟩

/-- Whenever the specification completes a sequence, so does the
    implementation, and the two end related. -/
theorem runOps_simulation (spec : τ → ι → Option τ) (R : σ → τ → Prop)
    (hstep : ∀ s t a t', R s t → spec t a = some t' → ∃ s', exec s a = some s' ∧ R s' t')
    (as : List ι) (s : σ) (t t' : τ) (hR : R s t) (h : runOps spec t as = some t') :
    ∃ s', runOps exec s as = some s' ∧ R s' t' :=
  runOps_simulation_of exec spec (fun _ _ => True) R (fun s t a t' hR _ => hstep s t a t' hR)
    as s t t' hR (everyStep_of_forall exec _ (fun _ _ => trivial) as s) h

/-- An invariant under which every step that meets the condition can be taken:
    the run is completed and the invariant holds at its end. -/
theorem runOps_progress_of (hstep : ∀ s a, P s → C s a → ∃ s', exec s a = some s' ∧ P s')
    (as : List ι) (s : σ) (hP : P s) (hC : EveryStep exec C s as) :
    ∃ t, runOps exec s as = some t ∧ P t := by
  have hunit : runOps (fun (_ : Unit) (_ : ι) => some ()) () as = some () := by
    induction as generalizing s with
    | nil => rfl
    | cons a as ih =>
      rcases hstep s a hP hC.1 with ⟨s', hexec, hP'⟩
      exact ih s' hP' (hC.2 s' hexec)
  exact runOps_simulation_of exec (fun (_ : Unit) (_ : ι) => some ()) C (fun s _ => P s)
    (fun s _ a _ hP hC _ => hstep s a hP hC) as s () () hP hC hunit

end FreeBSDKern.Lib
