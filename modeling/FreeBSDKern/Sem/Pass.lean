import FreeBSDKern.Sem.Atomic
import FreeBSDKern.Sem.Clear
import FreeBSDKern.Sem.Waiters

/-!
# Calls Are Atomic

A pass of `sys_semop` over its vector does all of it or nothing. Where it gets
through, every value has changed by the sum of the operations on it, and on the way no
value has left its range. Where it fails, or sleeps, the values are the
old ones, and so are the entries of all undo structures.

Four things have to be so for this. The undo structure of the process must not go to the
free list in the middle of the vector, since the rest of the vector would then work
on a structure that is no longer its own. No entry may be left over when a
set is removed, since it would come back with another sequence number. The counts of
threads must not overflow, and a new set must not get an identifier with which
a thread still sleeps. And what the exit hook adds has to be in range.

## Main definitions

* `RoundOk`, `Orderly`: The conditions.
* `Pass`: What a pass should do.
* `Sound`: What holds in every state of such a run.

## Theorems

* `applyOps_prefix`: The values on the way.
* `Sound.attempt`: One pass.
* `Sound.step`: One step.
* `semop_atomic`: Every run of such steps.
* `semop_error_loses`: A run in which a failed call loses an entry.
-/

namespace FreeBSDKern.Sem

open Lib

/-- The values on the way, where the loop gets through. -/
theorem applyOps_prefix (vmx base : Nat) (hvmx : vmx < 65536) (sops : List Sembuf) :
    ∀ (sem : Nat → Semaphore) (wake : Bool), (applyOps vmx base sops sem wake).stop = .done →
    ∀ pre post, sops = pre ++ post → ∀ x, 0 ≤ (sem x).val + netAt base pre x ∧
      ((sem x).val ≤ vmx → (sem x).val + netAt base pre x ≤ vmx) := by
  induction sops with
  | nil =>
    intro sem wake _ pre post hsplit x
    rw [(List.append_eq_nil_iff.mp hsplit.symm).1, netAt]
    exact ⟨by omega, fun h => by omega⟩
  | cons b rest ih =>
    intro sem wake hdone pre post hsplit x
    rcases applyOps_cons vmx base b rest sem wake with
      ⟨stop, heq, hstop⟩ | ⟨sem', wake', heq, hsem, -, h0, h1, -⟩
    · rw [heq] at hdone
      rcases hstop with ⟨rfl, -⟩ | ⟨rfl, -⟩
      · cases hdone
      · cases hdone
    rw [heq] at hdone
    cases pre with
    | nil =>
      rw [netAt]
      exact ⟨by omega, fun h => by omega⟩
    | cons d pre =>
      rw [List.cons_append, List.cons.injEq] at hsplit
      rcases hsplit with ⟨rfl, hrest⟩
      have hstep := ih sem' wake' hdone pre post hrest x
      have hval := setVal_val hvmx h0 h1 x
      rw [← hsem] at hval
      rw [hval] at hstep
      rw [netAt, ← Int.add_assoc]
      refine ⟨hstep.1, fun hle => hstep.2 ?_⟩
      by_cases hx : base + b.num = x
      · subst hx
        rw [if_pos rfl] at hval
        omega
      · rw [if_neg hx] at hval
        omega

/-- What a pass over the vector of a call should do: all of it, or nothing. -/
structure Pass (inf : Seminfo) (σ σ' : State) (c : Call) (out : Outcome) : Prop where
  done : out = .ok →
    (∀ x, ((σ'.sem x).val : Int) = (σ.sem x).val + netAt (σ.sema c.idx).base c.sops x) ∧
    (∀ pre post, c.sops = pre ++ post → ∀ n < (σ.sema c.idx).nsems,
      0 ≤ (σ.sem ((σ.sema c.idx).base + n)).val + netAt 0 pre n ∧
        (σ.sem ((σ.sema c.idx).base + n)).val + netAt 0 pre n ≤ inf.semvmx) ∧
    ∀ pre b post, c.sops = pre ++ b :: post → b.op = 0 →
      (σ.sem ((σ.sema c.idx).base + b.num)).val + netAt 0 pre b.num = 0
  kept : out ≠ .ok → (∀ x, (σ'.sem x).val = (σ.sem x).val) ∧
    ∀ p, (entsOf σ'.undos p).Perm (entsOf σ.undos p)

variable {inf : Seminfo} {σ σ' : State} {c : Call}

theorem Pass.of_same {τ : State} {out : Outcome} (h : Pass inf τ σ' c out) (hsema : τ.sema = σ.sema)
    (hundos : τ.undos = σ.undos) (hval : ∀ x, (τ.sem x).val = (σ.sem x).val) :
    Pass inf σ σ' c out := by
  refine ⟨fun hout => ?_, fun hout => ?_⟩
  · have hdone := h.done hout
    simp only [hsema, hval] at hdone
    exact hdone
  have hkept := h.kept hout
  simp only [hundos, hval] at hkept
  exact hkept

-- A call that ends before its first operation, or behind a sleep.
theorem Pass.of_error {e : Errno} (hundos : σ'.undos = σ.undos)
    (hval : ∀ x, (σ'.sem x).val = (σ.sem x).val) : Pass inf σ σ' c (.error e) :=
  ⟨fun hout => absurd hout (by simp), fun _ => ⟨hval, fun p => by rw [hundos]⟩⟩

/-- A pass that gets through keeps the undo structure of its process up to its
    last operation, and one that sleeps is counted without an overflow. -/
def RoundOk (inf : Seminfo) (σ : State) (c : Call) : Prop :=
  match (applyOps inf.semvmx (σ.sema c.idx).base c.sops σ.sem false).stop with
  | .done => lastKept inf c (entsOf σ.undos c.proc) c.sops = true
  | .wait b => b.nowait = false →
      (σ.sem ((σ.sema c.idx).base + b.num)).cnt (decide (b.op = 0)) < 65535
  | .erange => True

instance (inf : Seminfo) (σ : State) (c : Call) : Decidable (RoundOk inf σ c) := by
  unfold RoundOk
  cases (applyOps inf.semvmx (σ.sema c.idx).base c.sops σ.sem false).stop with
  | done => exact inferInstanceAs (Decidable (_ = _))
  | wait b => exact inferInstanceAs (Decidable (_ → _))
  | erange => exact isTrue trivial

/-- The state behind a sleep, before the next pass. -/
def awakened (σ : State) (i : Nat) (t : Sleeper) : State :=
  { σ with
    sem := bump σ.sem ((σ.sema t.call.idx).base + t.sop.num) t.sop (-1)
    sleepers := σ.sleepers.eraseIdx i }

/-- The steps of a run that keeps the calls atomic. -/
def Orderly (inf : Seminfo) (σ : State) : Op → Prop
  | .semop c => semvalid σ c.idx c.seq = true →
      (∀ b ∈ c.sops, b.num < (σ.sema c.idx).nsems) → RoundOk inf σ c
  | .resume i intr => intr = false → ∀ t ∈ σ.sleepers[i]?,
      semvalid σ t.call.idx t.call.seq = true → RoundOk inf (awakened σ i t) t.call
  | .rmid idx seq => semvalid σ idx seq = true →
      ∀ s ∈ σ.undos.list, Clears idx none (σ.undos.pool s).ents
  | .semget .. => FreshId inf σ
  | .exitStep k => ExitFits inf σ (.exitStep k)
  | _ => True

instance (inf : Seminfo) (σ : State) : Decidable (FreshId inf σ) :=
  inferInstanceAs (Decidable (∀ i ∈ (_ : Option Nat), _))

instance (inf : Seminfo) (σ : State) (op : Op) : Decidable (Orderly inf σ op) :=
  match op with
  | .semop _ => inferInstanceAs (Decidable (_ = _ → (∀ b ∈ _, _) → _))
  | .resume i _ => inferInstanceAs (Decidable (_ = _ → ∀ t ∈ σ.sleepers[i]?, _ = _ → _))
  | .rmid _ _ => inferInstanceAs (Decidable (_ = _ → ∀ s ∈ _, _))
  | .semget .. => inferInstanceAs (Decidable (FreshId inf σ))
  | .exitStep k => inferInstanceAs (Decidable (ExitFits inf σ (.exitStep k)))
  | .setval .. => isTrue trivial
  | .setall .. => isTrue trivial
  | .exitBegin .. => isTrue trivial

/-- What holds in every state of such a run. -/
structure Sound (inf : Seminfo) (σ : State) : Prop where
  layout : Layout σ
  range : InRange inf σ
  tally : Tally σ
  books : Books 0 (fun _ => True) σ.undos (σ.exiting.map Prod.fst)
  owing : ∀ p, Owing inf (fun i s => semvalid σ i s = true) (entsOf σ.undos p)

-- Without a condition on sequence numbers it does not matter which set is meant.
theorem Books.any {id id' : Nat} {u : Undos} {ex : List Nat} (h : Books id (fun _ => True) u ex) :
    Books id' (fun _ => True) u ex :=
  ⟨h.once, h.free, h.owned, h.procs, h.good, fun _ _ _ _ _ => trivial⟩

theorem Owing.mono {V W : Nat → Nat → Prop} {ents : List Undo} (h : Owing inf V ents)
    (hVW : ∀ e ∈ ents, V e.id e.seq → W e.id e.seq) : Owing inf W ents :=
  ⟨h.good, h.fits, h.length, fun e he => hVW e he (h.current e he)⟩

/-- One pass ends, and does all or nothing. -/
theorem Sound.attempt (h : Sound inf σ) (hvalid : semvalid σ c.idx c.seq = true)
    (hnums : ∀ b ∈ c.sops, b.num < (σ.sema c.idx).nsems) (hround : RoundOk inf σ c) :
    ∃ σ' out, attempt inf σ c = some (σ', out) ∧ Pass inf σ σ' c out ∧ Sound inf σ' := by
  have hvmx := inf.semvmx_lt
  rcases (semvalid_iff _ _ _).mp hvalid with ⟨hall, hseq⟩
  -- The undo part, where the loop gets through.
  have hpart : (applyOps inf.semvmx (σ.sema c.idx).base c.sops σ.sem false).stop = .done →
      ∃ u' err, undoPart inf c σ.undos = some (u', err) ∧
        Books 0 (fun _ => True) u' (σ.exiting.map Prod.fst) ∧
        (∀ q, q ≠ c.proc → entsOf u' q = entsOf σ.undos q) ∧
        Owing inf (fun i s => semvalid σ i s = true) (entsOf u' c.proc) ∧
        (err ≠ none → (entsOf u' c.proc).Perm (entsOf σ.undos c.proc)) := by
    intro hstop
    unfold RoundOk at hround
    rw [hstop] at hround
    refine undoPart_atomic (fun _ => trivial) hvalid (fun s hs => ?_) h.books (h.owing c.proc) hround
    exact ((semvalid_iff _ _ _).mp hs).2.symm.trans hseq
  have hsome : ∃ σ' out, Sem.attempt inf σ c = some (σ', out) := by
    unfold Sem.attempt
    simp only
    cases hst : (applyOps inf.semvmx (σ.sema c.idx).base c.sops σ.sem false).stop with
    | wait b =>
      simp only
      split
      case isTrue => exact ⟨_, _, rfl⟩
      case isFalse => exact ⟨_, _, rfl⟩
    | erange => exact ⟨_, _, rfl⟩
    | done =>
      rcases hpart hst with ⟨u', err, hrun, -⟩
      unfold undoPart at hrun
      simp only [hrun]
      cases err with
      | none | some e => exact ⟨_, _, rfl⟩
  rcases hsome with ⟨σ', out, hatt⟩
  have hkeeps := attempt_keeps hatt
  have hlayout := h.layout.of_sema hkeeps.sema hkeeps.semtot
  have hrange : InRange inf σ' := by
    intro i hi n hn
    rw [hkeeps.sema] at hi hn ⊢
    exact hkeeps.range _ (h.range i hi n hn)
  refine ⟨σ', out, hatt, ?_⟩
  rcases attempt_cases hatt with ⟨b, pre, post, rfl, hsplit, hwait, -, hσ⟩ |
    ⟨e, u, rfl, rfl, hu⟩ | ⟨u, rfl, hdone, hu, rfl⟩
  · -- It falls asleep.
    have hb : b ∈ c.sops := by
      rw [hsplit]
      exact List.mem_append_cons_self
    have hroom : (σ.sem ((σ.sema c.idx).base + b.num)).cnt (decide (b.op = 0)) < 65535 := by
      unfold Sem.attempt at hatt
      unfold RoundOk at hround
      simp only at hatt
      cases hst : (applyOps inf.semvmx (σ.sema c.idx).base c.sops σ.sem false).stop with
      | wait d =>
        rw [hst] at hatt hround
        simp only at hatt hround
        split at hatt
        case isTrue => cases hatt
        case isFalse hno =>
        rw [Option.some.injEq, Prod.mk.injEq] at hatt
        have hsleepers := congrArg State.sleepers (hatt.1.trans hσ)
        simp only [List.cons.injEq, Sleeper.mk.injEq] at hsleepers
        have hdb : d = b := hsleepers.1.2.1
        subst hdb
        exact hround (Bool.eq_false_iff.mpr hno)
      | erange =>
        rw [hst] at hatt
        cases hatt
      | done =>
        rw [hst] at hatt
        rcases hpart hst with ⟨u', err, hrun, -⟩
        unfold undoPart at hrun
        simp only [hrun] at hatt
        cases err with
        | none | some e => cases hatt
    subst hσ
    refine ⟨⟨fun hout => absurd hout (by simp), fun _ => ⟨fun x => bump_val _ _ _ _ _,
      fun p => List.Perm.refl _⟩⟩, hlayout, hrange, ?_, h.books, h.owing⟩
    exact h.tally.sleep h.layout c b hvalid hb hnums hroom
  · -- It fails.
    have hundo : Books 0 (fun _ => True) u (σ.exiting.map Prod.fst) ∧
        ∀ p, (entsOf u p).Perm (entsOf σ.undos p) := by
      rcases hu with rfl | ⟨hdone, hu⟩
      · exact ⟨h.books, fun p => List.Perm.refl _⟩
      rcases hpart hdone with ⟨u', err, hrun, hb, hq, -, hperm⟩
      rw [hu, Option.some.injEq, Prod.mk.injEq] at hrun
      rcases hrun with ⟨rfl, rfl⟩
      refine ⟨hb, fun p => ?_⟩
      by_cases hp : p = c.proc
      · rw [hp]
        exact hperm (by simp)
      · rw [hq p hp]
    refine ⟨⟨fun hout => absurd hout (by simp), fun _ => ⟨fun x => rfl, hundo.2⟩⟩, hlayout, hrange,
      h.tally.change rfl (fun _ _ => rfl) (Or.inl rfl), hundo.1, fun p => ?_⟩
    exact (h.owing p).perm (hundo.2 p).symm
  · -- It gets through.
    have hval := applyOps_val inf.semvmx (σ.sema c.idx).base hvmx c.sops σ.sem false
    have hcount := applyOps_stop inf.semvmx (σ.sema c.idx).base hvmx c.sops σ.sem false
    rw [hdone] at hcount
    simp only at hcount
    rcases hpart hdone with ⟨u', err, hrun, hb, hq, howe, -⟩
    rw [hu, Option.some.injEq, Prod.mk.injEq] at hrun
    rcases hrun with ⟨rfl, rfl⟩
    refine ⟨⟨fun _ => ⟨fun x => ?_, fun pre post hsplit n hn => ?_, fun pre b post hsplit hop => ?_⟩,
      fun hout => absurd rfl hout⟩, hlayout, hrange, ?_, hb, fun p => ?_⟩
    · simp only [(setPids_frame _ _ _ _ _).1]
      rw [(hval x).1, hcount, List.take_length]
    · have hpre := applyOps_prefix _ _ hvmx _ _ _ hdone pre post hsplit ((σ.sema c.idx).base + n)
      rw [netAt_base] at hpre
      exact ⟨hpre.1, hpre.2 (h.range c.idx hall n hn)⟩
    · have hblocks := applyOps_done _ _ hvmx _ _ _ hdone pre b post hsplit
      unfold Blocks at hblocks
      rw [netAt_base] at hblocks
      by_contra hne
      exact hblocks (Or.inr ⟨hop, hne⟩)
    · refine h.tally.change rfl (fun x zero => ?_) ?_
      · unfold Semaphore.cnt
        simp only [(setPids_frame _ _ _ _ _).2.1, (setPids_frame _ _ _ _ _).2.2,
          (hval x).2.2.1, (hval x).2.2.2]
      simp only
      split
      case isTrue => exact Or.inr ⟨c.idx, rfl⟩
      case isFalse => exact Or.inl rfl
    by_cases hp : p = c.proc
    · rw [hp]
      exact howe
    have hsame := h.owing p
    rw [← hq p hp] at hsame
    exact hsame

/-- `sys_semop`, up to its end or its first sleep. -/
theorem Sound.semop (h : Sound inf σ) (c : Call) (hop : Orderly inf σ (.semop c)) :
    ∃ σ' out, semop inf σ c = some (σ', out) ∧ Pass inf σ σ' c out ∧ Sound inf σ' := by
  have hfail : ∀ e, Pass inf σ σ c (.error e) := fun e => Pass.of_error rfl (fun _ => rfl)
  unfold Sem.semop
  split
  case isTrue => exact ⟨σ, _, rfl, hfail _, h⟩
  case isFalse =>
  split
  case isTrue => exact ⟨σ, _, rfl, hfail _, h⟩
  case isFalse =>
  split
  case isTrue => exact ⟨σ, _, rfl, hfail _, h⟩
  case isFalse hvalid =>
  have hvalid := not_not.mp hvalid
  split
  case isTrue => exact ⟨σ, _, rfl, hfail _, h⟩
  case isFalse hnums =>
  have hnums : ∀ b ∈ c.sops, b.num < (σ.sema c.idx).nsems := by
    intro b hb
    have hany := List.any_eq_false.mp (Bool.eq_false_iff.mpr hnums) b hb
    rw [decide_eq_true_iff] at hany
    omega
  exact h.attempt hvalid hnums (hop hvalid hnums)

-- Only threads and counts differ.
theorem Sound.of_same (h : Sound inf σ) (hsema : σ'.sema = σ.sema) (htot : σ'.semtot = σ.semtot)
    (hval : ∀ x, (σ'.sem x).val = (σ.sem x).val) (hundos : σ'.undos = σ.undos)
    (hex : σ'.exiting = σ.exiting) (htally : Tally σ') : Sound inf σ' := by
  refine ⟨h.layout.of_sema hsema htot, fun i hi n hn => ?_, htally, ?_, fun p => ?_⟩
  · rw [hsema] at hi hn ⊢
    rw [hval]
    exact h.range i hi n hn
  · rw [hundos, hex]
    exact h.books
  · rw [hundos]
    exact (h.owing p).mono (fun e _ he => (semvalid_congr hsema _ _).trans he)

/-- The rest of `sys_semop` behind a sleep. -/
theorem Sound.resume (h : Sound inf σ) {i : Nat} {intr : Bool} {t : Sleeper}
    (ht : σ.sleepers[i]? = some t) (hawake : (t.woken || intr) = true)
    (hop : Orderly inf σ (.resume i intr)) :
    ∃ σ' out, resume inf σ i intr = some (σ', out) ∧ Pass inf σ σ' t.call out ∧ Sound inf σ' := by
  unfold Sem.resume
  rw [ht]
  simp only
  rw [if_neg (not_not.mpr hawake)]
  by_cases hvalid : semvalid σ t.call.idx t.call.seq = true
  · rw [if_neg (not_not.mpr hvalid)]
    have hback : Sound inf (awakened σ i t) :=
      h.of_same rfl rfl (fun x => bump_val _ _ _ _ _) rfl rfl (h.tally.leave h.layout ht hvalid)
    cases intr with
    | true =>
      exact ⟨_, _, rfl, Pass.of_error rfl (fun x => bump_val _ _ _ _ _), hback⟩
    | false =>
      have hnums := (h.tally.nums t (List.mem_of_getElem? ht) hvalid).2
      rcases hback.attempt (c := t.call) hvalid hnums (hop rfl t ht hvalid) with
        ⟨σ', out, hrun, hpass, hsound⟩
      exact ⟨σ', out, hrun, hpass.of_same rfl rfl (fun x => bump_val _ _ _ _ _), hsound⟩
  rw [if_pos hvalid]
  exact ⟨_, _, rfl, Pass.of_error rfl (fun _ => rfl), h.of_same rfl rfl (fun _ => rfl) rfl rfl
    (h.tally.gone ht (Bool.eq_false_iff.mpr hvalid))⟩

/-- Some entries are forgotten. -/
theorem owing_cleared {V : Nat → Nat → Prop} {u : Undos} {ex : List Nat}
    (hb : Books 0 (fun _ => True) u ex) (h : ∀ p, Owing inf V (entsOf u p)) (semid : Nat)
    (semnum : Option Nat) : Books 0 (fun _ => True) (semundoClear u semid semnum) ex ∧
      ∀ p, Owing inf V (entsOf (semundoClear u semid semnum) p) ∧
        ((∀ s ∈ u.list, Clears semid semnum (u.pool s).ents) →
          ∀ e ∈ entsOf (semundoClear u semid semnum) p, ¬ Goes semid semnum e) := by
  have hany : Books (semid + 1) (fun _ => True) u ex := hb.any
  have hb' : Books 0 (fun _ => True) (semundoClear u semid semnum) ex :=
    (hany.semundoClear semnum (Nat.succ_ne_self semid)).1.any
  have hswept := semundoClear_swept (List.nodup_append.mp hb.once).1 semid semnum
  refine ⟨hb', fun p => ?_⟩
  rcases hswept.entsOf hb hb' p with ⟨hnil, -⟩ | ⟨s, hof, hents⟩
  · rw [hnil]
    exact ⟨Owing.nil inf V, fun _ e he => absurd he List.not_mem_nil⟩
  rcases undoOf_mem hof with ⟨hs, hp⟩
  have hold := h p
  rw [hb.entsOf_eq hs hp] at hold
  rw [hents, hswept.entries s hs]
  rcases clearLoop_spec semid semnum (u.pool s).ents.length 0 (u.pool s).ents hold.good with
    ⟨hgood, hsub, -⟩
  refine ⟨hold.subset hgood hsub, fun hclears e he => ?_⟩
  have hstay := List.of_mem_filter (((clearLoop_exact _).mpr (hclears s hs)).subset he)
  exact of_decide_eq_true hstay

/-- A process begins to exit. -/
theorem Sound.exitBegin (h : Sound inf σ) (p : Nat) (hlayout : Layout (exitBegin σ p).1)
    (hrange : InRange inf (exitBegin σ p).1) : Sound inf (exitBegin σ p).1 := by
  unfold Sem.exitBegin at hlayout hrange ⊢
  cases hof : undoOf σ.undos p with
  | none => exact h
  | some s =>
    rcases h.books.unlink hof with ⟨hb, hents⟩
    have howe : ∀ q, Owing inf (fun i s => semvalid σ i s = true)
        (entsOf { σ.undos with list := σ.undos.list.erase s } q) := by
      intro q
      rw [hents]
      split
      case isTrue => exact Owing.nil inf _
      case isFalse => exact h.owing q
    rw [hof] at hlayout hrange
    simp only at hlayout hrange ⊢
    split
    case isTrue hnil =>
      rw [if_pos hnil] at hlayout hrange
      exact ⟨hlayout, hrange, h.tally.change rfl (fun _ _ => rfl) (Or.inl rfl), hb.dealloc.1,
        fun q => by rw [hb.dealloc.2]; exact howe q⟩
    case isFalse hne =>
      rw [if_neg hne] at hlayout hrange
      exact ⟨hlayout, hrange, h.tally.change rfl (fun _ _ => rfl) (Or.inl rfl), hb, howe⟩

/-- The exit hook goes on. -/
theorem Sound.exitStep {k : Nat} {out : Outcome} (h : Sound inf σ)
    (hexec : exitStep σ k = some (σ', out)) (hlayout : Layout σ') (hrange : InRange inf σ') :
    Sound inf σ' := by
  rcases exitStep_cases hexec with ⟨s, ix, hk, hcases⟩
  rcases List.getElem?_eq_some_iff.mp hk with ⟨hlen, hget⟩
  have hset : (σ.exiting.set k (s, ix + 1)).map Prod.fst = σ.exiting.map Prod.fst := by
    have hfst : (s, ix + 1).1 = (σ.exiting[k]).1 := by rw [hget]
    rw [List.map_set, hfst, ← List.map_set, List.set_getElem_self]
  rcases hcases with ⟨e, -, ⟨-, rfl⟩ | ⟨-, -, rfl⟩⟩ | ⟨-, rfl⟩
  · exact ⟨hlayout, hrange, h.tally.change rfl (fun _ _ => rfl) (Or.inl rfl),
      by simp only [hset]; exact h.books, h.owing⟩
  · refine ⟨hlayout, hrange, h.tally.change rfl (fun x zero => ?_) (Or.inr ⟨e.id, rfl⟩),
      by simp only [hset]; exact h.books, h.owing⟩
    unfold Semaphore.cnt
    simp only [(setVal_other _ _ _ _).2.1, (setVal_other _ _ _ _).2.2]
  have hperm : (σ.exiting.map Prod.fst).Perm (s :: (σ.exiting.eraseIdx k).map Prod.fst) := by
    have hcons := (List.getElem_cons_eraseIdx_perm hlen).symm.map Prod.fst
    rwa [hget] at hcons
  have hb := (h.books.mono (fun _ hs => hs) hperm).dealloc
  exact ⟨hlayout, hrange, h.tally.change rfl (fun _ _ => rfl) (Or.inl rfl), hb.1,
    fun q => by rw [hb.2]; exact h.owing q⟩

theorem Sound.step {op : Op} (h : Sound inf σ) (hop : Orderly inf σ op)
    (hstep : step inf σ op = some σ') : Sound inf σ' := by
  have hfits : ExitFits inf σ op := by
    cases op with
    | exitStep k => exact hop
    | _ => trivial
  rcases inRange_step h.layout h.range hfits hstep with ⟨hlayout, hrange⟩
  unfold Sem.step at hstep
  rw [Option.map_eq_some_iff] at hstep
  rcases hstep with ⟨⟨τ, out⟩, hexec, rfl⟩
  simp only at hlayout hrange ⊢
  cases op with
  | semget key nsems creat excl =>
    simp only [exec, Option.some.injEq] at hexec
    have hτ : (Sem.semget inf σ key nsems creat excl).1 = τ := by rw [hexec]
    subst hτ
    have hsame : (Sem.semget inf σ key nsems creat excl).1.undos = σ.undos ∧
        (Sem.semget inf σ key nsems creat excl).1.exiting = σ.exiting := by
      rcases semget_cases inf σ key nsems creat excl with heq | ⟨i, n, -, -, heq⟩
      · rw [heq]
        exact ⟨rfl, rfl⟩
      · rw [heq]
        exact ⟨rfl, rfl⟩
    refine ⟨hlayout, hrange, h.tally.semget h.layout hop key nsems creat excl, ?_, fun p => ?_⟩
    · rw [hsame.1, hsame.2]
      exact h.books
    · rw [hsame.1]
      exact (h.owing p).mono (fun e _ he => semvalid_semget key nsems creat excl e.seq he)
  | semop c =>
    rcases h.semop c hop with ⟨σ₁, out₁, hrun, -, hsound⟩
    have heq := hrun.symm.trans hexec
    rw [Option.some.injEq, Prod.mk.injEq] at heq
    exact heq.1 ▸ hsound
  | resume i intr =>
    rcases resume_cases hexec with ⟨t, ht, -⟩
    have hawake : (t.woken || intr) = true := by
      by_contra hno
      simp only [exec, Sem.resume, ht, if_pos hno] at hexec
      cases hexec
    rcases h.resume ht hawake hop with ⟨σ₁, out₁, hrun, -, hsound⟩
    have heq := hrun.symm.trans hexec
    rw [Option.some.injEq, Prod.mk.injEq] at heq
    exact heq.1 ▸ hsound
  | setval idx seq num val =>
    simp only [exec, Option.some.injEq] at hexec
    have hcases := setval_cases inf σ idx seq num val
    rw [hexec] at hcases
    rcases hcases with rfl | ⟨-, -, -, -, rfl⟩
    · exact h
    rcases owing_cleared h.books h.owing idx (some num) with ⟨hb, howe⟩
    refine ⟨hlayout, hrange, h.tally.change rfl (fun x zero => ?_) (Or.inr ⟨idx, rfl⟩), hb,
      fun p => (howe p).1⟩
    unfold Semaphore.cnt
    simp only [(setVal_other _ _ _ _).2.1, (setVal_other _ _ _ _).2.2]
  | setall idx seq vals =>
    simp only [exec, Option.some.injEq] at hexec
    have hcases := setall_cases inf σ idx seq vals
    rw [hexec] at hcases
    rcases hcases with rfl | ⟨-, rfl⟩
    · exact h
    have hframe := setallLoop_frame inf.semvmx (σ.sema idx).base vals (σ.sema idx).nsems 0 σ.sem
    rcases owing_cleared h.books h.owing idx none with ⟨hb, howe⟩
    refine ⟨hlayout, hrange, h.tally.change rfl (fun x zero => ?_) (Or.inr ⟨idx, rfl⟩), hb,
      fun p => (howe p).1⟩
    unfold Semaphore.cnt
    simp only [(hframe x).1, (hframe x).2.1]
  | rmid idx seq =>
    simp only [exec, Option.some.injEq] at hexec
    have hτ : (Sem.rmid inf σ idx seq).1 = τ := by rw [hexec]
    subst hτ
    have htally : Tally (Sem.rmid inf σ idx seq).1 := h.tally.rmid h.layout idx seq
    by_cases hnone : (Sem.rmid inf σ idx seq).1 = σ
    · rw [hnone]
      exact h
    have hvalid : semvalid σ idx seq = true := by
      by_contra hno
      refine hnone ?_
      unfold Sem.rmid
      rw [if_pos (Or.inr hno)]
    rcases rmid_cases inf σ idx seq with heq | ⟨-, heq⟩
    · exact absurd heq hnone
    rcases owing_cleared h.books h.owing idx none with ⟨hb, howe⟩
    have hundos : (Sem.rmid inf σ idx seq).1.undos = semundoClear σ.undos idx none := by
      rw [heq]
    have hex : (Sem.rmid inf σ idx seq).1.exiting = σ.exiting := by rw [heq]
    refine ⟨hlayout, hrange, htally, ?_, fun p => ?_⟩
    · rw [hundos, hex]
      exact hb
    rw [hundos]
    -- No entry of the set is left, and those of other sets are current.
    refine (howe p).1.mono (fun e he hv => semvalid_rmid seq (fun hid => ?_) e.seq hv)
    exact (howe p).2 (hop hvalid) e he ⟨hid, Or.inl rfl⟩
  | exitBegin p =>
    simp only [exec, Option.some.injEq] at hexec
    have hτ : (Sem.exitBegin σ p).1 = τ := by rw [hexec]
    subst hτ
    exact h.exitBegin p hlayout hrange
  | exitStep k => exact h.exitStep hexec hlayout hrange

theorem Sound.init (inf : Seminfo) (mem : Nat → Semaphore) : Sound inf (init inf mem) := by
  refine ⟨Layout.init inf mem, fun i hi => absurd hi (by simp [Sem.init]), ⟨?_, ?_⟩, ?_, fun p => ?_⟩
  · exact fun i hi => absurd hi (by simp [Sem.init])
  · exact fun t ht => absurd ht List.not_mem_nil
  · have hbooked : Books 0 (fun seq => semvalid (Sem.init inf mem) 0 seq = true)
        (Sem.init inf mem).undos ((Sem.init inf mem).exiting.map Prod.fst) :=
      (Booked.init inf mem 0).books
    exact hbooked.mono (fun _ _ => trivial) (List.Perm.refl _)
  · exact Owing.nil inf _

/-- What a state should promise: the counts are the numbers of threads asleep, and every
    pass of a call ends and does all or nothing. -/
structure AtomicCalls (inf : Seminfo) (σ : State) : Prop where
  counted : ∀ i, (σ.sema i).alloc = true → ∀ n < (σ.sema i).nsems, ∀ zero,
    (σ.sem ((σ.sema i).base + n)).cnt zero = σ.sleepers.countP (waitsNow σ.sema i n zero)
  semop : ∀ c, Orderly inf σ (.semop c) →
    ∃ σ' out, semop inf σ c = some (σ', out) ∧ Pass inf σ σ' c out
  resume : ∀ i intr, ∀ t ∈ σ.sleepers[i]?, (t.woken || intr) = true →
    Orderly inf σ (.resume i intr) →
    ∃ σ' out, resume inf σ i intr = some (σ', out) ∧ Pass inf σ σ' t.call out

theorem Sound.atomicCalls (h : Sound inf σ) : AtomicCalls inf σ := by
  refine ⟨h.tally.counted, fun c hop => ?_, fun i intr t ht hawake hop => ?_⟩
  · rcases h.semop c hop with ⟨σ', out, hrun, hpass, -⟩
    exact ⟨σ', out, hrun, hpass⟩
  · rcases h.resume ht hawake hop with ⟨σ', out, hrun, hpass, -⟩
    exact ⟨σ', out, hrun, hpass⟩

/-- In every run of orderly steps all calls are atomic. -/
theorem semop_atomic (inf : Seminfo) (mem : Nat → Semaphore) (ops : List Op) (σ : State)
    (horderly : EveryStep (step inf) (Orderly inf) (init inf mem) ops)
    (hrun : runOps (step inf) (init inf mem) ops = some σ) : AtomicCalls inf σ :=
  (runOps_invariant_of (step inf) (Orderly inf) (Sound inf)
    (fun _ _ _ hP hC hstep => hP.step hC hstep) ops (init inf mem) σ (Sound.init inf mem) horderly
    hrun).atomicCalls

/-- A process waits to take one, gets it, and the set is removed. -/
def atomicOps : List Op :=
  [.semget 0 2 true false, .semop ⟨2, 0, 1, [⟨0, -1, true, false⟩]⟩,
    .semop ⟨1, 0, 1, [⟨0, 1, false, false⟩]⟩, .resume 0 false,
    .semop ⟨2, 0, 1, [⟨1, 1, true, false⟩, ⟨0, -1, true, true⟩]⟩, .rmid 0 1]

theorem semop_atomic_removed :
    ∃ σ, runOps (step defaults) (init defaults (fun _ => .zero)) atomicOps = some σ ∧
      AtomicCalls defaults σ := by
  have hsome : (runOps (step defaults) (init defaults (fun _ => .zero)) atomicOps).isSome = true := by
    decide +kernel
  rcases Option.isSome_iff_exists.mp hsome with ⟨σ, hσ⟩
  exact ⟨σ, hσ, semop_atomic defaults (fun _ => .zero) atomicOps σ (by decide +kernel) hσ⟩

/-- A process has taken one off a semaphore. -/
def owedOneOps : List Op :=
  [.semget 0 3 true false,
    .semop ⟨1, 0, 1, [⟨0, 3, false, false⟩, ⟨1, 3, false, false⟩, ⟨2, 30000, false, false⟩]⟩,
    .semop ⟨1, 0, 1, [⟨0, -1, true, false⟩]⟩]

/-- It gives it back, takes one off another semaphore, and takes more off a third than can
    be remembered. -/
def losingCall : Call :=
  ⟨1, 0, 1, [⟨0, 1, true, false⟩, ⟨1, -1, true, false⟩, ⟨2, -20000, true, false⟩]⟩

-- The call fails, and the entry for the first semaphore is gone.
theorem semop_error_loses : ¬ ∀ (inf : Seminfo) (mem : Nat → Semaphore) (ops : List Op) (σ : State),
    runOps (step inf) (init inf mem) ops = some σ → ∀ c σ' out,
      semop inf σ c = some (σ', out) → Pass inf σ σ' c out := by
  intro h
  have hval : (runOps (step defaults) (init defaults (fun _ => .zero)) owedOneOps).map (fun σ =>
      ((entsOf σ.undos 1).length, (semop defaults σ losingCall).map (fun r =>
        (r.2, entsOf r.1.undos 1)))) = some (1, some (.error .erange, [])) := by
    decide
  rcases Option.map_eq_some_iff.mp hval with ⟨σ, hσ, heq⟩
  rw [Prod.mk.injEq, Option.map_eq_some_iff] at heq
  rcases heq with ⟨hone, ⟨σ', out⟩, hrun, hres⟩
  rw [Prod.mk.injEq] at hres
  simp only at hres
  have hkept := (h defaults (fun _ => .zero) owedOneOps σ hσ losingCall σ' out hrun).kept
    (by rw [hres.1]; simp)
  have hlen := (hkept.2 1).length_eq
  rw [hres.2, hone] at hlen
  exact absurd hlen (by decide)

end FreeBSDKern.Sem
