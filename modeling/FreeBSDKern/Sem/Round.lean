import FreeBSDKern.Sem.Semop

/-!
# One Round of a Vector

What the loop of `sys_semop` over a vector does to the values. Up to where it stops
every value is the old one plus the operations on it, without a conversion that
loses anything, so the rollback restores the semaphores exactly.

`applyOps_cons` says what one operation can do, and everything about the loop is an
induction over it. `attempt_cases` says what a round can do, and what follows for
the sets, the sleepers and the undo structures starts from it.

## Main definitions

* `netAt`: What a list of operations adds to a semaphore.
* `Blocks`: An operation that has to wait.

## Theorems

* `applyOps_cons`: One operation.
* `applyOps_val`: The values behind the loop.
* `rollback_applyOps`: The rollback restores the semaphores.
* `applyOps_wake`: What changes without a wakeup.
* `applyOps_done`: A vector that gets through is not blocked anywhere.
* `attempt_cases`: One round.
* `semop_cases`, `resume_cases`, `setval_cases`, `setall_cases`, `exitStep_cases`: The
  calls.
-/

namespace FreeBSDKern.Sem

open Function

theorem ushort_natCast (n : Nat) (h : n < 65536) : ushort n = n := by
  unfold ushort
  omega

theorem ushort_of_nonneg {x : Int} (h0 : 0 ≤ x) (h : x < 65536) : (ushort x : Int) = x := by
  unfold ushort
  omega

theorem ushort_add (x y : Int) : ushort (ushort x + y) = ushort (x + y) := by
  unfold ushort
  omega

@[ext] theorem Semaphore.ext {s t : Semaphore} (hval : s.val = t.val) (hpid : s.pid = t.pid)
    (hncnt : s.ncnt = t.ncnt) (hzcnt : s.zcnt = t.zcnt) : s = t := by
  cases s
  cases t
  simp only at hval hpid hncnt hzcnt
  subst hval hpid hncnt hzcnt
  rfl

variable (vmx base : Nat) (vals : Nat → Nat) (sem : Nat → Semaphore) (x y : Nat) (v : Int)

@[simp] theorem setVal_self : (setVal sem x v x).val = ushort v := by
  unfold setVal
  rw [update_self]

theorem setVal_of_ne (h : y ≠ x) : setVal sem x v y = sem y := by
  unfold setVal
  exact update_of_ne h _ _

/-- Storing a value leaves the other fields. -/
theorem setVal_other :
    (setVal sem x v y).pid = (sem y).pid ∧ (setVal sem x v y).ncnt = (sem y).ncnt ∧
      (setVal sem x v y).zcnt = (sem y).zcnt := by
  by_cases h : y = x
  · subst h
    unfold setVal
    rw [update_self]
    exact ⟨rfl, rfl, rfl⟩
  · rw [setVal_of_ne sem x y v h]
    exact ⟨rfl, rfl, rfl⟩

theorem setVal_same : setVal sem x (sem x).val = sem := by
  funext y
  by_cases h : y = x
  · subst h
    ext
    · rw [setVal_self, ushort_natCast _ (sem y).val_lt]
    · exact (setVal_other sem y y _).1
    · exact (setVal_other sem y y _).2.1
    · exact (setVal_other sem y y _).2.2
  · exact setVal_of_ne sem x y _ h

/-- What a list of operations adds to a semaphore. -/
def netAt (base : Nat) : List Sembuf → Nat → Int
  | [], _ => 0
  | b :: rest, x => (if base + b.num = x then b.op else 0) + netAt base rest x

/-- An operation that has to wait at a value. -/
def Blocks (b : Sembuf) (v : Int) : Prop := (b.op < 0 ∧ v + b.op < 0) ∨ (b.op = 0 ∧ v ≠ 0)

/-- What one operation of a vector can do: the loop stops there, or it goes on behind it. -/
theorem applyOps_cons (b : Sembuf) (rest : List Sembuf) (sem : Nat → Semaphore) (wake : Bool) :
    (∃ stop, applyOps vmx base (b :: rest) sem wake = ⟨sem, 0, wake, stop⟩ ∧
      ((stop = .wait b ∧ Blocks b (sem (base + b.num)).val) ∨ (stop = .erange ∧ 0 < b.op))) ∨
    (∃ sem' wake', applyOps vmx base (b :: rest) sem wake = { applyOps vmx base rest sem' wake' with
          count := (applyOps vmx base rest sem' wake').count + 1 } ∧
      sem' = setVal sem (base + b.num) ((sem (base + b.num)).val + b.op) ∧
      ¬ Blocks b (sem (base + b.num)).val ∧ 0 ≤ (sem (base + b.num)).val + b.op ∧
      ((sem (base + b.num)).val + b.op ≤ vmx ∨ b.op ≤ 0) ∧ (wake = true → wake' = true) ∧
      (b.op < 0 → (sem (base + b.num)).val + b.op = 0 → 0 < (sem (base + b.num)).zcnt →
        wake' = true) ∧
      (0 < b.op → 0 < (sem (base + b.num)).ncnt → wake' = true)) := by
  have hlt := (sem (base + b.num)).val_lt
  unfold Blocks
  rw [applyOps]
  simp only
  split
  case isTrue hneg =>
    split
    case isTrue hblock => exact Or.inl ⟨_, rfl, Or.inl ⟨rfl, Or.inl ⟨hneg, hblock⟩⟩⟩
    case isFalse hpass =>
    refine Or.inr ⟨_, _, rfl, rfl, by omega, by omega, by omega, ?_, ?_, by omega⟩
    · intro hw
      rw [hw, Bool.true_or]
    intro _ hzero hz
    have hval : ushort ((sem (base + b.num)).val + b.op) = 0 := by
      rw [hzero]
      rfl
    rw [setVal_self, hval, (setVal_other _ _ _ _).2.2]
    simp [hz]
  case isFalse hneg =>
  split
  case isTrue hzero =>
    split
    case isTrue hblock =>
      exact Or.inl ⟨_, rfl, Or.inl ⟨rfl, Or.inr ⟨hzero, by omega⟩⟩⟩
    case isFalse hpass =>
      refine Or.inr ⟨sem, wake, rfl, ?_, by omega, by omega, by omega, id, by omega, by omega⟩
      rw [hzero, Int.add_zero, setVal_same]
  case isFalse hzero =>
  split
  case isTrue hbig => exact Or.inl ⟨_, rfl, Or.inr ⟨rfl, by omega⟩⟩
  case isFalse hpass =>
  refine Or.inr ⟨_, _, rfl, rfl, by omega, by omega, by omega, ?_, by omega, ?_⟩
  · intro hw
    rw [hw, Bool.true_or]
  · intro _ hn
    simp [hn]

/-- One operation that is done, in exact arithmetic. -/
theorem setVal_val {sem : Nat → Semaphore} {base vmx : Nat} {b : Sembuf} (hvmx : vmx < 65536)
    (h0 : 0 ≤ (sem (base + b.num)).val + b.op)
    (h1 : (sem (base + b.num)).val + b.op ≤ vmx ∨ b.op ≤ 0) (x : Nat) :
    ((setVal sem (base + b.num) ((sem (base + b.num)).val + b.op) x).val : Int) =
      (sem x).val + if base + b.num = x then b.op else 0 := by
  have hlt := (sem (base + b.num)).val_lt
  by_cases hx : base + b.num = x
  · subst hx
    rw [setVal_self, if_pos rfl, ushort_of_nonneg h0 (by omega)]
  · rw [setVal_of_ne _ _ _ _ (Ne.symm hx), if_neg hx, Int.add_zero]

/-- Behind the loop every value is the old one plus the operations that were done. -/
theorem applyOps_val (hvmx : vmx < 65536) (sops : List Sembuf) :
    ∀ (sem : Nat → Semaphore) (wake : Bool) (x : Nat),
    (((applyOps vmx base sops sem wake).sem x).val : Int) =
        (sem x).val + netAt base (sops.take (applyOps vmx base sops sem wake).count) x ∧
      ((applyOps vmx base sops sem wake).sem x).pid = (sem x).pid ∧
      ((applyOps vmx base sops sem wake).sem x).ncnt = (sem x).ncnt ∧
      ((applyOps vmx base sops sem wake).sem x).zcnt = (sem x).zcnt := by
  induction sops with
  | nil =>
    intro sem wake x
    simp [applyOps, netAt]
  | cons b rest ih =>
    intro sem wake x
    rcases applyOps_cons vmx base b rest sem wake with
      ⟨stop, heq, -⟩ | ⟨sem', wake', heq, hsem, -, h0, h1, -⟩
    · rw [heq]
      simp [netAt]
    rw [heq]
    rcases ih sem' wake' x with ⟨hval, hpid, hncnt, hzcnt⟩
    have hstep := setVal_val hvmx h0 h1 x
    have hother := setVal_other sem (base + b.num) x ((sem (base + b.num)).val + b.op)
    rw [← hsem] at hstep hother
    refine ⟨?_, hpid.trans hother.1, hncnt.trans hother.2.1, hzcnt.trans hother.2.2⟩
    simp only
    rw [List.take_succ_cons, netAt, hval, hstep, Int.add_assoc]

theorem rollback_val (sops : List Sembuf) : ∀ (sem : Nat → Semaphore) (x : Nat),
    (rollback base sops sem x).val = ushort ((sem x).val - netAt base sops x) ∧
      (rollback base sops sem x).pid = (sem x).pid ∧
      (rollback base sops sem x).ncnt = (sem x).ncnt ∧
      (rollback base sops sem x).zcnt = (sem x).zcnt := by
  induction sops with
  | nil =>
    intro sem x
    refine ⟨?_, rfl, rfl, rfl⟩
    rw [netAt, Int.sub_zero, ushort_natCast _ (sem x).val_lt]
    rfl
  | cons b rest ih =>
    intro sem x
    have hfold : rollback base (b :: rest) sem = rollback base rest
        (setVal sem (base + b.num) ((sem (base + b.num)).val - b.op)) := rfl
    have hother := setVal_other sem (base + b.num) x ((sem (base + b.num)).val - b.op)
    rcases ih (setVal sem (base + b.num) ((sem (base + b.num)).val - b.op)) x with
      ⟨hval, hpid, hncnt, hzcnt⟩
    rw [hfold]
    refine ⟨?_, hpid.trans hother.1, hncnt.trans hother.2.1, hzcnt.trans hother.2.2⟩
    rw [hval, netAt]
    by_cases hx : base + b.num = x
    · subst hx
      rw [setVal_self, if_pos rfl, Int.sub_eq_add_neg, ushort_add]
      congr 1
      omega
    · rw [setVal_of_ne _ _ _ _ (Ne.symm hx), if_neg hx, Int.zero_add]

section

variable (hvmx : vmx < 65536) (sops : List Sembuf)
include hvmx sops

theorem rollback_applyOps (sem : Nat → Semaphore)
    (wake : Bool) : rollback base (sops.take (applyOps vmx base sops sem wake).count)
      (applyOps vmx base sops sem wake).sem = sem := by
  funext x
  rcases applyOps_val vmx base hvmx sops sem wake x with ⟨hval, hpid, hncnt, hzcnt⟩
  rcases rollback_val base (sops.take (applyOps vmx base sops sem wake).count)
    (applyOps vmx base sops sem wake).sem x with ⟨hval', hpid', hncnt', hzcnt'⟩
  ext
  · rw [hval', hval, Int.add_sub_cancel, ushort_natCast _ (sem x).val_lt]
  · exact hpid'.trans hpid
  · exact hncnt'.trans hncnt
  · exact hzcnt'.trans hzcnt

/-- Where the loop stops. -/
theorem applyOps_stop :
    ∀ (sem : Nat → Semaphore) (wake : Bool), match (applyOps vmx base sops sem wake).stop with
    | .done => (applyOps vmx base sops sem wake).count = sops.length
    | .wait b => ∃ pre post, sops = pre ++ b :: post ∧
        Blocks b ((sem (base + b.num)).val + netAt base pre (base + b.num))
    | .erange => ∃ b ∈ sops, 0 < b.op := by
  induction sops with
  | nil =>
    intro sem wake
    rfl
  | cons b rest ih =>
    intro sem wake
    rcases applyOps_cons vmx base b rest sem wake with
      ⟨stop, heq, hstop⟩ | ⟨sem', wake', heq, hsem, -, h0, h1, -⟩
    · rw [heq]
      rcases hstop with ⟨rfl, hblocks⟩ | ⟨rfl, hpos⟩
      · refine ⟨[], rest, rfl, ?_⟩
        rw [netAt, Int.add_zero]
        exact hblocks
      · exact ⟨b, List.mem_cons_self, hpos⟩
    have hrest := ih sem' wake'
    rw [heq]
    simp only
    cases hst : (applyOps vmx base rest sem' wake').stop with
    | done =>
      rw [hst] at hrest
      simp only at hrest ⊢
      rw [hrest, List.length_cons]
    | wait c =>
      rw [hst] at hrest
      rcases hrest with ⟨pre, post, rfl, hblocks⟩
      refine ⟨b :: pre, post, rfl, ?_⟩
      rw [hsem, setVal_val hvmx h0 h1, Int.add_assoc] at hblocks
      exact hblocks
    | erange =>
      rw [hst] at hrest
      rcases hrest with ⟨c, hc, hpos⟩
      exact ⟨c, List.mem_cons_of_mem _ hc, hpos⟩

theorem applyOps_done :
    ∀ (sem : Nat → Semaphore) (wake : Bool), (applyOps vmx base sops sem wake).stop = .done →
    ∀ pre b post, sops = pre ++ b :: post →
      ¬ Blocks b ((sem (base + b.num)).val + netAt base pre (base + b.num)) := by
  induction sops with
  | nil =>
    intro sem wake _ pre b post h
    exact absurd h (by simp)
  | cons c rest ih =>
    intro sem wake hdone pre b post hsplit
    rcases applyOps_cons vmx base c rest sem wake with
      ⟨stop, heq, hstop⟩ | ⟨sem', wake', heq, hsem, hblocks, h0, h1, -⟩
    · rw [heq] at hdone
      rcases hstop with ⟨rfl, -⟩ | ⟨rfl, -⟩
      · cases hdone
      · cases hdone
    rw [heq] at hdone
    cases pre with
    | nil =>
      rw [List.nil_append, List.cons.injEq] at hsplit
      rw [← hsplit.1, netAt, Int.add_zero]
      exact hblocks
    | cons d pre =>
      rw [List.cons_append, List.cons.injEq] at hsplit
      rcases hsplit with ⟨rfl, hrest⟩
      have := ih sem' wake' hdone pre b post hrest
      rw [hsem, setVal_val hvmx h0 h1, Int.add_assoc] at this
      exact this

/-- The values stay below the maximum. -/
theorem applyOps_range :
    ∀ (sem : Nat → Semaphore) (wake : Bool) (x : Nat), (sem x).val ≤ vmx →
    ((applyOps vmx base sops sem wake).sem x).val ≤ vmx := by
  induction sops with
  | nil =>
    intro sem wake x h
    exact h
  | cons b rest ih =>
    intro sem wake x h
    rcases applyOps_cons vmx base b rest sem wake with
      ⟨stop, heq, -⟩ | ⟨sem', wake', heq, hsem, -, h0, h1, -⟩
    · rw [heq]
      exact h
    rw [heq]
    refine ih sem' wake' x ?_
    have hval := setVal_val hvmx h0 h1 x
    rw [← hsem] at hval
    by_cases hx : base + b.num = x
    · subst hx
      rw [if_pos rfl] at hval
      omega
    · rw [if_neg hx] at hval
      omega

/-- Without a wakeup, a value that someone waits to grow has not grown, and one that
    someone waits to be zero has not become zero. -/
theorem applyOps_wake :
    ∀ (sem : Nat → Semaphore) (wake : Bool) (x : Nat),
    (applyOps vmx base sops sem wake).wake = false → wake = false ∧
      (0 < (sem x).ncnt → ((applyOps vmx base sops sem wake).sem x).val ≤ (sem x).val) ∧
      (0 < (sem x).zcnt → (sem x).val ≠ 0 → ((applyOps vmx base sops sem wake).sem x).val ≠ 0) := by
  induction sops with
  | nil =>
    intro sem wake x h
    exact ⟨h, fun _ => le_rfl, fun _ hne => hne⟩
  | cons b rest ih =>
    intro sem wake x h
    rcases applyOps_cons vmx base b rest sem wake with
      ⟨stop, heq, -⟩ | ⟨sem', wake', heq, hsem, -, h0, h1, hkeep, hzero, hinc⟩
    · rw [heq] at h ⊢
      exact ⟨h, fun _ => le_rfl, fun _ hne => hne⟩
    rw [heq] at h ⊢
    rcases ih sem' wake' x h with ⟨hw', hn, hz⟩
    have hval := setVal_val hvmx h0 h1 x
    have hother := setVal_other sem (base + b.num) x ((sem (base + b.num)).val + b.op)
    rw [← hsem] at hval hother
    rw [hother.2.1] at hn
    rw [hother.2.2] at hz
    refine ⟨?_, ?_, ?_⟩
    · cases hwake : wake with
      | false => rfl
      | true => exact absurd (hkeep hwake) (by rw [hw']; decide)
    · intro hcnt
      have hle := hn hcnt
      by_cases hx : base + b.num = x
      · subst hx
        have hpos : ¬ 0 < b.op := fun hpos => absurd (hinc hpos hcnt) (by rw [hw']; decide)
        rw [if_pos rfl] at hval
        simp only
        omega
      rw [if_neg hx] at hval
      simp only
      omega
    intro hcnt hne
    refine hz hcnt ?_
    by_cases hx : base + b.num = x
    · subst hx
      rw [if_pos rfl] at hval
      intro hz0
      have hneg : b.op < 0 := by omega
      exact absurd (hzero hneg (by omega) hcnt) (by rw [hw']; decide)
    · rw [if_neg hx] at hval
      omega

end

theorem setPids_frame (proc : Nat) (sops : List Sembuf) : ∀ (sem : Nat → Semaphore) (x : Nat),
    (setPids base proc sops sem x).val = (sem x).val ∧
      (setPids base proc sops sem x).ncnt = (sem x).ncnt ∧
      (setPids base proc sops sem x).zcnt = (sem x).zcnt := by
  induction sops with
  | nil =>
    intro sem x
    exact ⟨rfl, rfl, rfl⟩
  | cons b rest ih =>
    intro sem x
    rcases ih (update sem (base + b.num) { sem (base + b.num) with pid := proc }) x with
      ⟨hval, hncnt, hzcnt⟩
    by_cases hx : x = base + b.num
    · subst hx
      rw [update_self] at hval hncnt hzcnt
      exact ⟨hval, hncnt, hzcnt⟩
    · rw [update_of_ne hx] at hval hncnt hzcnt
      exact ⟨hval, hncnt, hzcnt⟩

theorem bump_val (b : Sembuf) (delta : Int) : (bump sem x b delta y).val = (sem y).val := by
  unfold bump
  by_cases hy : y = x
  · subst hy
    rw [update_self]
    split <;> rfl
  · rw [update_of_ne hy]

/-- What the undo part of a round does. -/
def undoPart (inf : Seminfo) (c : Call) (u : Undos) : Option (Undos × Option Errno) :=
  if c.sops.any Sembuf.undoes then undoLoop inf c c.sops [] u none else some (u, none)

variable {inf : Seminfo} {σ σ' : State} {out : Outcome}

/-- What a round can do: it falls asleep at an operation that blocks, it fails and
    leaves the semaphores as they were, or it gets through. -/
theorem attempt_cases {c : Call} (h : attempt inf σ c = some (σ', out)) :
    (∃ b pre post, out = .asleep ∧ c.sops = pre ++ b :: post ∧ b.nowait = false ∧
      Blocks b ((σ.sem ((σ.sema c.idx).base + b.num)).val +
        netAt (σ.sema c.idx).base pre ((σ.sema c.idx).base + b.num)) ∧
      σ' = { σ with
        sem := bump σ.sem ((σ.sema c.idx).base + b.num) b 1
        sleepers := ⟨c, b, false⟩ :: σ.sleepers }) ∨
    (∃ e u, out = .error e ∧ σ' = { σ with undos := u } ∧ (u = σ.undos ∨
        (applyOps inf.semvmx (σ.sema c.idx).base c.sops σ.sem false).stop = .done ∧
          undoPart inf c σ.undos = some (u, some e))) ∨
    (∃ u, out = .ok ∧ (applyOps inf.semvmx (σ.sema c.idx).base c.sops σ.sem false).stop = .done ∧
      undoPart inf c σ.undos = some (u, none) ∧ σ' = { σ with
        sem := setPids (σ.sema c.idx).base c.proc c.sops
          (applyOps inf.semvmx (σ.sema c.idx).base c.sops σ.sem false).sem
        undos := u
        sleepers := if (applyOps inf.semvmx (σ.sema c.idx).base c.sops σ.sem false).wake
          then wakeup σ.sleepers c.idx else σ.sleepers }) := by
  have hvmx := inf.semvmx_lt
  have hback := rollback_applyOps inf.semvmx (σ.sema c.idx).base hvmx c.sops σ.sem false
  have hstop := applyOps_stop inf.semvmx (σ.sema c.idx).base hvmx c.sops σ.sem false
  unfold attempt at h
  simp only at h
  cases hst : (applyOps inf.semvmx (σ.sema c.idx).base c.sops σ.sem false).stop with
  | wait b =>
    rw [hst] at hstop h
    simp only [hback] at h
    rcases hstop with ⟨pre, post, hsops, hblocks⟩
    split at h
    case isTrue hnowait =>
      rw [Option.some.injEq, Prod.mk.injEq] at h
      exact Or.inr (Or.inl ⟨.eagain, σ.undos, h.2.symm, h.1.symm, Or.inl rfl⟩)
    case isFalse hnowait =>
      rw [Option.some.injEq, Prod.mk.injEq] at h
      exact Or.inl ⟨b, pre, post, h.2.symm, hsops, by simpa using hnowait, hblocks, h.1.symm⟩
  | erange =>
    rw [hst] at h
    simp only [hback, Option.some.injEq, Prod.mk.injEq] at h
    exact Or.inr (Or.inl ⟨.erange, σ.undos, h.2.symm, h.1.symm, Or.inl rfl⟩)
  | done =>
    rw [hst] at hstop h
    simp only at hstop h
    rw [hstop, List.take_length] at hback
    have hpart : (if c.sops.any Sembuf.undoes then undoLoop inf c c.sops [] σ.undos none
        else some (σ.undos, none)) = undoPart inf c σ.undos := rfl
    rw [hpart] at h
    cases hu : undoPart inf c σ.undos with
    | none =>
      rw [hu] at h
      cases h
    | some r =>
      rw [hu] at h
      rcases r with ⟨u, e⟩
      cases e with
      | some e =>
        simp only [hback, Option.some.injEq, Prod.mk.injEq] at h
        exact Or.inr (Or.inl ⟨e, u, h.2.symm, h.1.symm, Or.inr ⟨rfl, rfl⟩⟩)
      | none =>
        simp only [Option.some.injEq, Prod.mk.injEq] at h
        exact Or.inr (Or.inr ⟨u, h.2.symm, rfl, rfl, h.1.symm⟩)

theorem semvalid_iff (σ : State) (idx seq : Nat) :
    semvalid σ idx seq = true ↔ (σ.sema idx).alloc = true ∧ (σ.sema idx).seq = seq := by
  unfold semvalid
  rw [Bool.and_eq_true, decide_eq_true_iff]

theorem semop_cases {c : Call} (h : semop inf σ c = some (σ', out)) :
    (σ' = σ ∧ ∃ e, out = .error e) ∨
    (semvalid σ c.idx c.seq = true ∧ (∀ b ∈ c.sops, b.num < (σ.sema c.idx).nsems) ∧
      attempt inf σ c = some (σ', out)) := by
  have hfail : ∀ e, some (σ, Outcome.error e) = some (σ', out) → σ' = σ ∧ ∃ e, out = .error e := by
    intro e heq
    rw [Option.some.injEq, Prod.mk.injEq] at heq
    exact ⟨heq.1.symm, e, heq.2.symm⟩
  unfold semop at h
  split at h
  case isTrue => exact Or.inl (hfail _ h)
  case isFalse =>
  split at h
  case isTrue => exact Or.inl (hfail _ h)
  case isFalse =>
  split at h
  case isTrue => exact Or.inl (hfail _ h)
  case isFalse hvalid =>
  split at h
  case isTrue => exact Or.inl (hfail _ h)
  case isFalse hnums =>
  refine Or.inr ⟨not_not.mp hvalid, ?_, h⟩
  intro b hb
  have := List.any_eq_false.mp (Bool.eq_false_iff.mpr hnums) b hb
  rw [decide_eq_true_iff] at this
  omega

/-- What happens when a sleep ends: the set is gone, the sleep was interrupted, or there is
    another round. In the last two cases the sleeper is no longer counted. -/
theorem resume_cases {i : Nat} {intr : Bool} (h : resume inf σ i intr = some (σ', out)) :
    ∃ t, σ.sleepers[i]? = some t ∧
    ((semvalid σ t.call.idx t.call.seq = false ∧ out = .error .eidrm ∧
        σ' = { σ with sleepers := σ.sleepers.eraseIdx i }) ∨
      (semvalid σ t.call.idx t.call.seq = true ∧ out = .error .eintr ∧ σ' = { σ with
          sem := bump σ.sem ((σ.sema t.call.idx).base + t.sop.num) t.sop (-1)
          sleepers := σ.sleepers.eraseIdx i }) ∨
      (semvalid σ t.call.idx t.call.seq = true ∧ attempt inf { σ with
          sem := bump σ.sem ((σ.sema t.call.idx).base + t.sop.num) t.sop (-1)
          sleepers := σ.sleepers.eraseIdx i } t.call = some (σ', out))) := by
  unfold resume at h
  cases ht : σ.sleepers[i]? with
  | none =>
    rw [ht] at h
    cases h
  | some t =>
    rw [ht] at h
    refine ⟨t, rfl, ?_⟩
    simp only at h
    split at h
    case isTrue => cases h
    case isFalse =>
    split at h
    case isTrue hvalid =>
      rw [Option.some.injEq, Prod.mk.injEq] at h
      exact Or.inl ⟨by simpa using hvalid, h.2.symm, h.1.symm⟩
    case isFalse hvalid =>
    have hvalid : semvalid σ t.call.idx t.call.seq = true := not_not.mp hvalid
    split at h
    case isTrue =>
      rw [Option.some.injEq, Prod.mk.injEq] at h
      exact Or.inr (Or.inl ⟨hvalid, h.2.symm, h.1.symm⟩)
    case isFalse => exact Or.inr (Or.inr ⟨hvalid, h⟩)

theorem setval_cases (inf : Seminfo) (σ : State) (idx seq num : Nat) (val : Int) :
    (setval inf σ idx seq num val).1 = σ ∨
    ((σ.sema idx).alloc = true ∧ num < (σ.sema idx).nsems ∧ 0 ≤ val ∧ val ≤ inf.semvmx ∧
      (setval inf σ idx seq num val).1 = { σ with
      sem := setVal σ.sem ((σ.sema idx).base + num) val
      undos := semundoClear σ.undos idx (some num)
      sleepers := wakeup σ.sleepers idx }) := by
  unfold setval
  split
  case isTrue => exact Or.inl rfl
  case isFalse hvalid =>
  rw [not_or, not_or, not_not] at hvalid
  split
  case isTrue => exact Or.inl rfl
  case isFalse hval =>
    exact Or.inr ⟨((semvalid_iff σ idx seq).mp hvalid.2.1).1, Nat.lt_of_not_le hvalid.2.2,
      by omega, by omega, rfl⟩

theorem setall_cases (inf : Seminfo) (σ : State) (idx seq : Nat) (vals : Nat → Nat) :
    (setall inf σ idx seq vals).1 = σ ∨
    ((σ.sema idx).alloc = true ∧ (setall inf σ idx seq vals).1 = { σ with
      sem := (setallLoop inf.semvmx (σ.sema idx).base vals (σ.sema idx).nsems 0 σ.sem).1
      undos := semundoClear σ.undos idx none
      sleepers := wakeup σ.sleepers idx }) := by
  unfold setall
  split
  case isTrue => exact Or.inl rfl
  case isFalse hvalid =>
    rw [not_or, not_not] at hvalid
    exact Or.inr ⟨((semvalid_iff σ idx seq).mp hvalid.2).1, rfl⟩

theorem exitBegin_cases (σ : State) (p : Nat) : ∃ u ex,
    (exitBegin σ p).1 = { σ with undos := u, exiting := ex } := by
  unfold exitBegin
  split
  · exact ⟨σ.undos, σ.exiting, rfl⟩
  simp only
  split
  case isTrue => exact ⟨_, σ.exiting, rfl⟩
  case isFalse => exact ⟨_, _, rfl⟩

/-- What a step of the exit hook can do: it skips an entry, it applies one, or it gives the
    structure back. -/
theorem exitStep_cases {k : Nat} (h : exitStep σ k = some (σ', out)) :
    ∃ s ix, σ.exiting[k]? = some (s, ix) ∧ ((∃ e, (σ.undos.pool s).ents[ix]? = some e ∧
        ((semvalid σ e.id e.seq = false ∧ σ' = { σ with exiting := σ.exiting.set k (s, ix + 1) }) ∨
          (semvalid σ e.id e.seq = true ∧ e.num < (σ.sema e.id).nsems ∧ σ' = { σ with
              sem := setVal σ.sem ((σ.sema e.id).base + e.num)
                (if e.adjval < 0 ∧ ((σ.sem ((σ.sema e.id).base + e.num)).val : Int) < -e.adjval
                  then 0 else (σ.sem ((σ.sema e.id).base + e.num)).val + e.adjval)
              sleepers := wakeup σ.sleepers e.id
              exiting := σ.exiting.set k (s, ix + 1) }))) ∨
      ((σ.undos.pool s).ents[ix]? = none ∧
        σ' = { σ with undos := dealloc σ.undos s, exiting := σ.exiting.eraseIdx k })) := by
  unfold exitStep at h
  cases hk : σ.exiting[k]? with
  | none =>
    rw [hk] at h
    cases h
  | some r =>
    rcases r with ⟨s, ix⟩
    rw [hk] at h
    refine ⟨s, ix, rfl, ?_⟩
    simp only at h
    cases he : (σ.undos.pool s).ents[ix]? with
    | none =>
      rw [he, Option.some.injEq, Prod.mk.injEq] at h
      exact Or.inr ⟨rfl, h.1.symm⟩
    | some e =>
      rw [he] at h
      refine Or.inl ⟨e, rfl, ?_⟩
      simp only [Option.map_eq_some_iff, Prod.mk.injEq] at h
      rcases h with ⟨σ₁, happly, rfl, -⟩
      unfold exitApply at happly
      split at happly
      case isTrue hvalid =>
        rw [Option.some.injEq] at happly
        exact Or.inl ⟨by simpa [semvalid] using hvalid, happly.symm⟩
      case isFalse hvalid =>
      split at happly
      case isTrue => cases happly
      case isFalse hnum =>
        rw [Option.some.injEq] at happly
        exact Or.inr ⟨not_not.mp hvalid, Nat.lt_of_not_le hnum, happly.symm⟩

theorem setallLoop_range : ∀ (n i : Nat)
    (sem : Nat → Semaphore) (x : Nat), (sem x).val ≤ vmx →
    ((setallLoop vmx base vals n i sem).1 x).val ≤ vmx := by
  intro n
  induction n with
  | zero =>
    intro i sem x h
    exact h
  | succ n ih =>
    intro i sem x h
    rw [setallLoop]
    split
    case isTrue => exact h
    case isFalse hval =>
    refine ih (i + 1) _ x ?_
    by_cases hx : x = base + i
    · subst hx
      rw [setVal_self, ushort_natCast _ (ushort_lt _)]
      omega
    · rw [setVal_of_ne _ _ _ _ hx]
      exact h

theorem setallLoop_frame : ∀ (n i : Nat)
    (sem : Nat → Semaphore) (x : Nat),
    ((setallLoop vmx base vals n i sem).1 x).ncnt = (sem x).ncnt ∧
      ((setallLoop vmx base vals n i sem).1 x).zcnt = (sem x).zcnt ∧
      (x < base + i ∨ base + i + n ≤ x → (setallLoop vmx base vals n i sem).1 x = sem x) := by
  intro n
  induction n with
  | zero =>
    intro i sem x
    exact ⟨rfl, rfl, fun _ => rfl⟩
  | succ n ih =>
    intro i sem x
    rw [setallLoop]
    split
    case isTrue => exact ⟨rfl, rfl, fun _ => rfl⟩
    case isFalse =>
    rcases ih (i + 1) (setVal sem (base + i) (ushort (vals i))) x with ⟨hncnt, hzcnt, hout⟩
    have hother := setVal_other sem (base + i) x (ushort (vals i))
    refine ⟨hncnt.trans hother.2.1, hzcnt.trans hother.2.2, fun hx => ?_⟩
    rw [hout (by omega)]
    exact setVal_of_ne _ _ _ _ (by omega)

end FreeBSDKern.Sem
