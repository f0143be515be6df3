import FreeBSDKern.Fd.Copy
import FreeBSDKern.Lib.Run

/-!
# Every Reachable Descriptor Table

A run starts from the table `fdinit` makes and takes any of the calls in any
order, each with limits of its own. Beside the table it carries the ledger,
which is told only the call and what the call returned. A copy replaces the
table by the new one; the old one is left as it was, so nothing is lost by not
following both.

The callers owe two things. A descriptor is freed, or given a file, only while it
is in use, which is what the assertions in `fdunused` ask for. And `maxfd` is at
most `2^30`, beyond which doubling a descriptor does not fit an `int`.

## Main definitions

* `Op`: The calls.
* `record`: The ledger after a call.
* `Owed`: What the callers owe.

## Theorems

* `exec_keeps`: One call keeps the agreement, and no assertion in it fails.
* `descriptor_table`: Every reachable table agrees with its ledger, and an
  allocation from it returns the lowest unused descriptor.
-/

namespace FreeBSDKern.Fd

open Lib Function

inductive Op where
  | fdalloc (lim : Limits) (minfd : Int)
  | kernDup (lim : Limits) (mode : DupMode) (cloexec : Bool) (old new : Int)
  | finstall (lim : Limits) (fp : File) (cloexec : Bool) (fcaps : Filecaps)
  | finstallAt (fp : File) (fd : Int) (cloexec : Bool) (fcaps : Filecaps)
  | fdfree (fd : Int)
  | fdunused (fd : Int)
  | fdcopy (seen : List Int)
  | fdcopyRemapped (seen : List Int) (fds : List Int)

/-- A call that fails leaves the table it was given; the new table of a copy
    that fails is dropped. -/
def perform (t : Filedesc) : Op → Option (Except Errno Int × Filedesc)
  | .fdalloc lim minfd => fdalloc lim t minfd
  | .kernDup lim mode cloexec old new => kernDup lim t mode cloexec old new
  | .finstall lim fp cloexec fcaps => finstall lim t fp cloexec fcaps
  | .finstallAt fp fd cloexec fcaps => some (.ok fd, finstallAt t fp fd cloexec fcaps)
  | .fdfree fd => (fdfree t fd).map (fun t' => (.ok fd, t'))
  | .fdunused fd => (fdunused t fd).map (fun t' => (.ok fd, t'))
  | .fdcopy seen => (fdcopy t seen).map (fun t' => (.ok 0, t'))
  | .fdcopyRemapped seen fds =>
    (fdcopyRemapped t seen fds).map (fun r => match r with
      | .error e => (.error e, t)
      | .ok t' => (.ok 0, t'))

/-- The ledger after a call that returned `r`. -/
def record (u : Nat → Use) (op : Op) (r : Except Errno Int) : Nat → Use :=
  match r with
  | .error _ => u
  | .ok fd =>
    match op with
    | .fdalloc _ _ => update u fd.toNat .reserved
    | .kernDup _ _ _ old _ => update u fd.toNat (u old.toNat)
    | .finstall _ fp _ _ => update u fd.toNat (.opened fp)
    | .finstallAt fp _ _ _ => update u fd.toNat (.opened fp)
    | .fdfree _ => update u fd.toNat .free
    | .fdunused _ => update u fd.toNat .free
    | .fdcopy _ => fun i => passOn (u i)
    | .fdcopyRemapped _ fds => remapped u fds

def exec (s : Filedesc × (Nat → Use)) (op : Op) : Option (Filedesc × (Nat → Use)) :=
  (perform s.1 op).map (fun r => (r.2, record s.2 op r.1))

/-- What the caller of an operation owes. -/
def Owed (s : Filedesc × (Nat → Use)) : Op → Prop
  | .fdalloc lim _ => lim.maxfd ≤ 2 ^ 30
  | .kernDup lim _ _ _ _ => lim.maxfd ≤ 2 ^ 30
  | .finstall lim _ _ _ => lim.maxfd ≤ 2 ^ 30
  | .finstallAt _ fd _ _ => 0 ≤ fd ∧ s.2 fd.toNat ≠ .free
  | .fdfree fd => 0 ≤ fd ∧ s.2 fd.toNat ≠ .free
  | .fdunused fd => 0 ≤ fd ∧ s.2 fd.toNat = .reserved
  | .fdcopy seen => ∀ v ∈ seen, v < 2 ^ 30
  | .fdcopyRemapped seen _ => ∀ v ∈ seen, v < 2 ^ 30

instance Owed.decidable (s : Filedesc × (Nat → Use)) : ∀ op, Decidable (Owed s op)
  | .fdalloc lim _ => inferInstanceAs (Decidable (lim.maxfd ≤ 2 ^ 30))
  | .kernDup lim _ _ _ _ => inferInstanceAs (Decidable (lim.maxfd ≤ 2 ^ 30))
  | .finstall lim _ _ _ => inferInstanceAs (Decidable (lim.maxfd ≤ 2 ^ 30))
  | .finstallAt _ fd _ _ => inferInstanceAs (Decidable (0 ≤ fd ∧ s.2 fd.toNat ≠ .free))
  | .fdfree fd => inferInstanceAs (Decidable (0 ≤ fd ∧ s.2 fd.toNat ≠ .free))
  | .fdunused fd => inferInstanceAs (Decidable (0 ≤ fd ∧ s.2 fd.toNat = .reserved))
  | .fdcopy seen => inferInstanceAs (Decidable (∀ v ∈ seen, v < 2 ^ 30))
  | .fdcopyRemapped seen _ => inferInstanceAs (Decidable (∀ v ∈ seen, v < 2 ^ 30))

/-- The first table, with an empty ledger. -/
def start : Filedesc × (Nat → Use) := (fdinit0, fun _ => .free)

def Agree (s : Filedesc × (Nat → Use)) : Prop := TableOk s.1 s.2

/-- A call that leaves the table in one of the ways of `Leaves` keeps the
    agreement. -/
theorem agree_of_leaves {s : Filedesc × (Nat → Use)} {v : Use} {op : Op} (h : Agree s)
    (hleaves : Leaves s.1 s.2 v (perform s.1 op))
    (hrec : ∀ d : Nat, record s.2 op (.ok d) = update s.2 d v) :
    ∃ s', exec s op = some s' ∧ Agree s' := by
  rw [exec]
  cases hres : perform s.1 op with
  | none =>
    rw [hres] at hleaves
    exact hleaves.elim
  | some r =>
    rcases r with ⟨r, t'⟩
    rw [hres] at hleaves
    refine ⟨_, rfl, ?_⟩
    cases r with
    | error e =>
      have ht : t' = s.1 := hleaves
      rw [ht]
      exact h
    | ok fd =>
      rcases hleaves with ⟨d, rfl, hok⟩
      dsimp only
      rw [hrec d]
      exact hok

theorem exec_keeps (s : Filedesc × (Nat → Use)) (op : Op) (h : Agree s) (howed : Owed s op) :
    ∃ s', exec s op = some s' ∧ Agree s' := by
  cases op with
  | fdalloc lim minfd =>
    refine agree_of_leaves h (v := .reserved) ?_ (fun d => rfl)
    change Leaves _ _ _ (Fd.fdalloc lim s.1 minfd)
    rcases fdalloc_cases h lim howed minfd with hno | ⟨d, t', -, hres, hok⟩
    · rw [hno]
      exact rfl
    · rw [hres]
      exact ⟨d, rfl, hok⟩
  | kernDup lim mode cloexec old new =>
    exact agree_of_leaves h (TableOk.kernDup h lim howed mode cloexec old new) (fun d => rfl)
  | finstall lim fp cloexec fcaps =>
    exact agree_of_leaves h (TableOk.finstall h lim howed fp cloexec fcaps) (fun d => rfl)
  | finstallAt fp fd cloexec fcaps =>
    rcases howed with ⟨hnonneg, hused⟩
    lift fd to Nat using hnonneg
    exact ⟨_, rfl, TableOk.setEntry h fd hused _⟩
  | fdfree fd =>
    rcases howed with ⟨hnonneg, hused⟩
    lift fd to Nat using hnonneg
    rcases TableOk.fdfree h fd hused with ⟨t', hres, hok⟩
    exact ⟨(t', _), by rw [exec, perform, hres]; rfl, hok⟩
  | fdunused fd =>
    rcases howed with ⟨hnonneg, hused⟩
    lift fd to Nat using hnonneg
    rcases TableOk.fdunused h fd hused with ⟨t', hres, hok, -⟩
    exact ⟨(t', _), by rw [exec, perform, hres]; rfl, hok⟩
  | fdcopy seen =>
    rcases TableOk.fdcopy h seen howed with ⟨t', hres, hok⟩
    exact ⟨(t', _), by rw [exec, perform, hres]; rfl, hok⟩
  | fdcopyRemapped seen fds =>
    rcases TableOk.fdcopyRemapped h seen howed fds with ⟨e, hres⟩ | ⟨t', hres, hok⟩
    · exact ⟨s, by rw [exec, perform, hres]; rfl, h⟩
    · exact ⟨(t', _), by rw [exec, perform, hres]; rfl, hok⟩

theorem run_agrees (ops : List Op) (howed : EveryStep exec Owed start ops) :
    ∃ s, runOps exec start ops = some s ∧ Agree s :=
  runOps_progress_of exec Owed Agree exec_keeps ops start fdinit0_ok howed

/-- Every run that the callers' duties admit completes. In the table it ends
    with, a bit is set exactly for the descriptors in use, `fd_lastfile` is the
    highest of them or -1, all below `fd_freefile` are in use, no bit is set past
    the table, and an allocation returns the lowest unused descriptor when that is
    below `maxfd` and the accounting admits the growth it needs, and otherwise
    changes nothing. -/
theorem descriptor_table (ops : List Op) (howed : EveryStep exec Owed start ops) :
    ∃ t u, runOps exec start ops = some (t, u) ∧ (∀ i, WordMap.bit t.map i = true ↔ u i ≠ .free) ∧
      ((t.lastfile = -1 ∧ ∀ i, u i = .free) ∨
        ∃ k : Nat, t.lastfile = k ∧ u k ≠ .free ∧ ∀ i, k < i → u i = .free) ∧
      (∀ i : Nat, (i : Int) < t.freefile → u i ≠ .free) ∧
      (∀ i : Nat, t.nfiles ≤ i → WordMap.bit t.map i = false) ∧
      ∀ (lim : Limits) (minfd : Int), lim.maxfd ≤ 2 ^ 30 → ∃ d, LeastUnused u minfd d ∧
          ((d : Int) < lim.maxfd ∧ lim.Admits t d →
            ∃ t', fdalloc lim t minfd = some (.ok (d : Int), t') ∧
              TableOk t' (update u d .reserved)) ∧
          (¬ ((d : Int) < lim.maxfd ∧ lim.Admits t d) →
            fdalloc lim t minfd = some (.error .EMFILE, t)) := by
  rcases run_agrees ops howed with ⟨⟨t, u⟩, hrun, h⟩
  have hok : TableOk t u := h
  refine ⟨t, u, hrun, hok.used, ?_, hok.below_free, fun i hi => ?_, fun lim minfd hbound => ?_⟩
  · rcases hok.last with ⟨hr, hnone⟩ | ⟨k, hr, hk, habove⟩
    · exact .inl ⟨hr, fun i => (hok.bit_false i).mp (hnone i)⟩
    · exact .inr ⟨k, hr, (hok.used k).mp hk, fun i hi => (hok.bit_false i).mp (habove i hi)⟩
  · have hnf := hok.nfiles_eq
    exact hok.bit_end i (by omega)
  rcases hok.firstFree minfd with ⟨d, hd, -⟩
  refine ⟨d, hd, fun hyes => ?_, fun hno => ?_⟩
  · exact fdalloc_granted hok lim hbound minfd d hd hyes.1 hyes.2
  refine fdalloc_refused hok lim hbound minfd d hd ?_
  rw [not_and_or, not_lt] at hno
  exact hno

/-- A run that allocates, duplicates past the first table, frees and copies. -/
theorem descriptor_table_example : ∃ t u, runOps exec start [.fdalloc ⟨1000, none⟩ 0,
        .finstall ⟨1000, none⟩ ⟨7, 1#32⟩ true Filecaps.zero,
        .kernDup ⟨1000, none⟩ .fixed false 1 64, .fdunused 0, .fdfree 1, .fdcopy []] = some (t, u) ∧
      ∃ d, LeastUnused u 0 d := by
  rcases descriptor_table [.fdalloc ⟨1000, none⟩ 0,
        .finstall ⟨1000, none⟩ ⟨7, 1#32⟩ true Filecaps.zero,
        .kernDup ⟨1000, none⟩ .fixed false 1 64, .fdunused 0, .fdfree 1, .fdcopy []]
      (by decide +kernel) with ⟨t, u, hrun, -, -, -, -, halloc⟩
  rcases halloc ⟨1000, none⟩ 0 (by decide) with ⟨d, hd, -⟩
  exact ⟨t, u, hrun, d, hd⟩

/-- With accounting on and a limit of twenty descriptors, the first table has no
    room for descriptor 20: it is unused and below `maxfd`, and the allocation
    fails. -/
theorem racct_refuses_growth : LeastUnused start.2 20 20 ∧ (20 : Int) < 1000 ∧
      fdalloc ⟨1000, some (fun n => decide (n > 20))⟩ start.1 20 =
        some (.error .EMFILE, start.1) := by
  refine ⟨⟨by decide, rfl, fun i hlo hhi => by omega⟩, by decide, by decide⟩

end FreeBSDKern.Fd
