import FreeBSDKern.Lib.Run
import FreeBSDKern.Sem.Undo

/-!
# System V Semaphores

The calls of `sysv_sem.c` as steps on one state. Every set has its own mutex and a call
holds it from its checks to its end, except where it sleeps, so a call that does
not sleep is one step, and one that does is a step up to the sleep and a step
for each time it wakes. The hook at process exit takes the mutex for each entry apart, so
each entry is a step of its own.

The semaphores of all sets lie in one pool, `sem`, and a set knows where its own
begin. Removing a set moves what lies behind it. A semaphore set is named by its index and
its sequence number, the two halves of the identifier.

The checks of credentials and limits outside this file, and the copying from user
space, only ever end a call before it has changed anything. Such a call is no step.

## Main definitions

* `applyOps`, `rollback`: The loops of `sys_semop`.
* `attempt`: One round of `sys_semop`, up to the sleep or to the end.
* `exec`: One step.
-/

namespace FreeBSDKern.Sem

open Function

/-- Conversion to `u_short`. -/
def ushort (x : Int) : Nat := (x % 65536).toNat

theorem ushort_lt (x : Int) : ushort x < 65536 := by
  unfold ushort
  omega

/-- `struct sem`. The value and the two counts are `u_short`. -/
structure Semaphore where
  val : Nat
  pid : Nat
  ncnt : Nat
  zcnt : Nat
  val_lt : val < 65536
  ncnt_lt : ncnt < 65536
  zcnt_lt : zcnt < 65536
  deriving DecidableEq, Repr

/-- A semaphore that has been cleared. -/
def Semaphore.zero : Semaphore := ⟨0, 0, 0, 0, by decide, by decide, by decide⟩

/-- The fields of `struct semid_kernel` that are used: `SEM_ALLOC`, the key and the
    sequence number, and the place of the semaphores. -/
structure Set where
  alloc : Bool
  key : Int
  seq : Nat
  nsems : Nat
  base : Nat
  deriving DecidableEq, Repr

/-- `struct sembuf`, with `SEM_UNDO` and `IPC_NOWAIT`. -/
structure Sembuf where
  num : Nat
  op : Int
  undo : Bool
  nowait : Bool
  deriving DecidableEq, Repr

/-- A call of `sys_semop`. -/
structure Call where
  proc : Nat
  idx : Nat
  seq : Nat
  sops : List Sembuf
  deriving DecidableEq, Repr

/-- A call that sleeps, with the operation it could not do. -/
structure Sleeper where
  call : Call
  sop : Sembuf
  woken : Bool
  deriving DecidableEq, Repr

/-- The state. `exiting` has the undo structures that the exit hook is working on,
    each with the number of entries it has dealt with. -/
structure State where
  sema : Nat → Set
  sem : Nat → Semaphore
  semtot : Nat
  undos : Undos
  sleepers : List Sleeper
  exiting : List (Nat × Nat)

/-- `seminit`. The pool of semaphores holds whatever the memory did. -/
def init (inf : Seminfo) (mem : Nat → Semaphore) : State :=
  { sema := fun _ => ⟨false, 0, 0, 0, 0⟩
    sem := mem
    semtot := 0
    undos := initUndos inf
    sleepers := []
    exiting := [] }

/-- How a step ends. -/
inductive Outcome where
  | ok
  | error (e : Errno)
  | asleep
  deriving DecidableEq, Repr

/-- Store a value, converted to `u_short`. -/
def setVal (sem : Nat → Semaphore) (x : Nat) (v : Int) : Nat → Semaphore :=
  update sem x { sem x with val := ushort v, val_lt := ushort_lt v }

/-- Why the loop over a vector ends. -/
inductive Stop where
  | done
  | wait (sop : Sembuf)
  | erange
  deriving DecidableEq, Repr

/-- What the loop over a vector leaves: the semaphores, the number of operations
    it did, `do_wakeup`, and why it ended. -/
structure Applied where
  sem : Nat → Semaphore
  count : Nat
  wake : Bool
  stop : Stop

/-- The loop of `sys_semop` over a vector. -/
def applyOps (semvmx base : Nat) : List Sembuf → (Nat → Semaphore) → Bool → Applied
  | [], sem, wake => ⟨sem, 0, wake, .done⟩
  | b :: rest, sem, wake =>
    let x := base + b.num
    if b.op < 0 then
      if (sem x).val + b.op < 0 then ⟨sem, 0, wake, .wait b⟩
      else
        let sem' := setVal sem x ((sem x).val + b.op)
        let r := applyOps semvmx base rest sem'
          (wake || (decide ((sem' x).val = 0) && decide (0 < (sem' x).zcnt)))
        { r with count := r.count + 1 }
    else if b.op = 0 then
      if (sem x).val ≠ 0 then ⟨sem, 0, wake, .wait b⟩
      else
        let r := applyOps semvmx base rest sem wake
        { r with count := r.count + 1 }
    else if (sem x).val + b.op > semvmx then ⟨sem, 0, wake, .erange⟩
    else
      let r := applyOps semvmx base rest (setVal sem x ((sem x).val + b.op))
        (wake || decide (0 < (sem x).ncnt))
      { r with count := r.count + 1 }

/-- Take operations back. -/
def rollback (base : Nat) (sops : List Sembuf) (sem : Nat → Semaphore) : Nat → Semaphore :=
  sops.foldl (fun sem b => setVal sem (base + b.num) ((sem (base + b.num)).val - b.op)) sem

/-- Operations that have to be remembered. -/
def Sembuf.undoes (b : Sembuf) : Bool := b.undo && decide (b.op ≠ 0)

/-- Take adjustments back, the last one first. Failing is a panic. -/
def undoBack (inf : Seminfo) (c : Call) : List Sembuf → Undos → Option Nat → Option Undos
  | [], u, _ => some u
  | b :: done, u, suptr =>
    if b.undoes then
      match semundoAdjust inf u suptr c.proc c.idx c.seq b.num b.op with
      | (u', suptr', none) => undoBack inf c done u' suptr'
      | (_, _, some _) => none
    else undoBack inf c done u suptr

/-- The loop of `sys_semop` for the adjustments of a vector. `done` has the operations
    before, the last one first. -/
def undoLoop (inf : Seminfo) (c : Call) :
    List Sembuf → List Sembuf → Undos → Option Nat → Option (Undos × Option Errno)
  | [], _, u, _ => some (u, none)
  | b :: rest, done, u, suptr =>
    if b.undoes then
      match semundoAdjust inf u suptr c.proc c.idx c.seq b.num (-b.op) with
      | (u', suptr', none) => undoLoop inf c rest (b :: done) u' suptr'
      | (u', suptr', some e) => (undoBack inf c done u' suptr').map (fun u'' => (u'', some e))
    else undoLoop inf c rest (b :: done) u suptr

/-- `wakeup` of everyone who sleeps at a set. -/
def wakeup (sleepers : List Sleeper) (idx : Nat) : List Sleeper :=
  sleepers.map (fun t => if t.call.idx = idx then { t with woken := true } else t)

/-- Count one more who waits at a semaphore, or one less. -/
def bump (sem : Nat → Semaphore) (x : Nat) (sop : Sembuf) (delta : Int) : Nat → Semaphore :=
  update sem x
    (if sop.op = 0 then
      { sem x with zcnt := ushort ((sem x).zcnt + delta), zcnt_lt := ushort_lt _ }
    else { sem x with ncnt := ushort ((sem x).ncnt + delta), ncnt_lt := ushort_lt _ })

/-- Set `sempid` of the semaphores of a vector. -/
def setPids (base proc : Nat) (sops : List Sembuf) (sem : Nat → Semaphore) : Nat → Semaphore :=
  sops.foldl (fun sem b =>
    update sem (base + b.num) { sem (base + b.num) with pid := proc }) sem

/-- One round of `sys_semop`. -/
def attempt (inf : Seminfo) (σ : State) (c : Call) : Option (State × Outcome) :=
  let base := (σ.sema c.idx).base
  let r := applyOps inf.semvmx base c.sops σ.sem false
  match r.stop with
  | .wait b =>
    let sem := rollback base (c.sops.take r.count) r.sem
    if b.nowait then some ({ σ with sem := sem }, .error .eagain)
    else some ({ σ with
      sem := bump sem (base + b.num) b 1
      sleepers := ⟨c, b, false⟩ :: σ.sleepers }, .asleep)
  | .erange =>
    some ({ σ with sem := rollback base (c.sops.take r.count) r.sem }, .error .erange)
  | .done =>
    match (if c.sops.any Sembuf.undoes then undoLoop inf c c.sops [] σ.undos none
      else some (σ.undos, none)) with
    | none => none
    | some (u, some e) =>
      some ({ σ with sem := rollback base c.sops r.sem, undos := u }, .error e)
    | some (u, none) =>
      some ({ σ with
        sem := setPids base c.proc c.sops r.sem
        undos := u
        sleepers := if r.wake then wakeup σ.sleepers c.idx else σ.sleepers }, .ok)

/-- The set is still the one that the identifier names. -/
def semvalid (σ : State) (idx seq : Nat) : Bool :=
  (σ.sema idx).alloc && decide ((σ.sema idx).seq = seq)

/-- `sys_semop`, up to its end or its first sleep. -/
def semop (inf : Seminfo) (σ : State) (c : Call) : Option (State × Outcome) :=
  if inf.semmni ≤ c.idx then some (σ, .error .einval)
  else if 8 < c.sops.length ∧ inf.semopm < c.sops.length then some (σ, .error .e2big)
  else if ¬ semvalid σ c.idx c.seq then some (σ, .error .einval)
  else if c.sops.any (fun b => decide ((σ.sema c.idx).nsems ≤ b.num)) then some (σ, .error .efbig)
  else attempt inf σ c

/-- The rest of `sys_semop` behind a sleep that ends by a wakeup or by a signal. -/
def resume (inf : Seminfo) (σ : State) (i : Nat) (intr : Bool) : Option (State × Outcome) :=
  match σ.sleepers[i]? with
  | none => none
  | some t =>
    let σ' := { σ with sleepers := σ.sleepers.eraseIdx i }
    if ¬ (t.woken || intr) then none
    else if ¬ semvalid σ t.call.idx t.call.seq then some (σ', .error .eidrm)
    else
      let σ'' := { σ' with
        sem := bump σ.sem ((σ.sema t.call.idx).base + t.sop.num) t.sop (-1) }
      if intr then some (σ'', .error .eintr) else attempt inf σ'' t.call

/-- `SETVAL` of `kern_semctl`. -/
def setval (inf : Seminfo) (σ : State) (idx seq num : Nat) (val : Int) : State × Outcome :=
  if inf.semmni ≤ idx ∨ ¬ semvalid σ idx seq ∨ (σ.sema idx).nsems ≤ num then (σ, .error .einval)
  else if val < 0 ∨ val > inf.semvmx then (σ, .error .erange)
  else
    ({ σ with
      sem := setVal σ.sem ((σ.sema idx).base + num) val
      undos := semundoClear σ.undos idx (some num)
      sleepers := wakeup σ.sleepers idx }, .ok)

/-- The loop of `SETALL`, for the semaphores that are left. A value that is too large
    ends it. -/
def setallLoop (semvmx base : Nat) (vals : Nat → Nat) :
    Nat → Nat → (Nat → Semaphore) → (Nat → Semaphore) × Bool
  | 0, _, sem => (sem, true)
  | n + 1, i, sem =>
    if ushort (vals i) > semvmx then (sem, false)
    else setallLoop semvmx base vals n (i + 1) (setVal sem (base + i) (ushort (vals i)))

/-- `SETALL` of `kern_semctl`. -/
def setall (inf : Seminfo) (σ : State) (idx seq : Nat) (vals : Nat → Nat) : State × Outcome :=
  if inf.semmni ≤ idx ∨ ¬ semvalid σ idx seq then (σ, .error .einval)
  else
    let r := setallLoop inf.semvmx (σ.sema idx).base vals (σ.sema idx).nsems 0 σ.sem
    ({ σ with
      sem := r.1
      undos := semundoClear σ.undos idx none
      sleepers := wakeup σ.sleepers idx }, if r.2 then .ok else .error .erange)

/-- `IPC_RMID` of `kern_semctl`. What lies behind the set moves to its place. -/
def rmid (inf : Seminfo) (σ : State) (idx seq : Nat) : State × Outcome :=
  if inf.semmni ≤ idx ∨ ¬ semvalid σ idx seq then (σ, .error .einval)
  else
    let k := σ.sema idx
    ({ σ with
      sema := fun i =>
        if i = idx then { k with alloc := false }
        else if (σ.sema i).alloc ∧ k.base < (σ.sema i).base then
          { σ.sema i with base := (σ.sema i).base - k.nsems }
        else σ.sema i
      sem := fun i => if k.base ≤ i ∧ i < σ.semtot then σ.sem (i + k.nsems) else σ.sem i
      semtot := σ.semtot - k.nsems
      undos := semundoClear σ.undos idx none
      sleepers := wakeup σ.sleepers idx }, .ok)

/-- `sys_semget`, with `IPC_PRIVATE`, `IPC_CREAT` and `IPC_EXCL`. -/
def semget (inf : Seminfo) (σ : State) (key nsems : Int) (creat excl : Bool) : State × Outcome :=
  match (if key = 0 then none
    else (List.range inf.semmni).find? (fun i => (σ.sema i).alloc && decide ((σ.sema i).key = key)))
  with
  | some i =>
    if 0 < nsems ∧ ((σ.sema i).nsems : Int) < nsems then (σ, .error .einval)
    else if creat && excl then (σ, .error .eexist)
    else (σ, .ok)
  | none =>
    if ¬ (key = 0 ∨ creat) then (σ, .error .enoent)
    else if nsems ≤ 0 ∨ nsems > inf.semmsl then (σ, .error .einval)
    else if nsems > inf.semmns - σ.semtot then (σ, .error .enospc)
    else match (List.range inf.semmni).find? (fun i => !(σ.sema i).alloc) with
      | none => (σ, .error .enospc)
      | some i =>
        ({ σ with
          sema := update σ.sema i
            ⟨true, key, ((σ.sema i).seq + 1) % 32768, nsems.toNat, σ.semtot⟩
          sem := fun j =>
            if σ.semtot ≤ j ∧ j < σ.semtot + nsems.toNat then Semaphore.zero else σ.sem j
          semtot := σ.semtot + nsems.toNat }, .ok)

/-- Deallocate an undo structure. -/
def dealloc (u : Undos) (s : Nat) : Undos :=
  { u with pool := update u.pool s ⟨none, []⟩, free := s :: u.free }

/-- `semexit_myhook` up to its loop: the undo structure of the process leaves the
    list. Without entries the hook is done with it. -/
def exitBegin (σ : State) (p : Nat) : State × Outcome :=
  match undoOf σ.undos p with
  | none => (σ, .ok)
  | some s =>
    let u := { σ.undos with list := σ.undos.list.erase s }
    if (u.pool s).ents = [] then ({ σ with undos := dealloc u s }, .ok)
    else ({ σ with undos := u, exiting := (s, 0) :: σ.exiting }, .ok)

/-- Apply one entry. -/
def exitApply (σ : State) (e : Undo) : Option State :=
  if ¬ semvalid σ e.id e.seq then some σ
  else if (σ.sema e.id).nsems ≤ e.num then none
  else
    let x := (σ.sema e.id).base + e.num
    some { σ with
      sem := setVal σ.sem x
        (if e.adjval < 0 ∧ ((σ.sem x).val : Int) < -e.adjval then 0 else (σ.sem x).val + e.adjval)
      sleepers := wakeup σ.sleepers e.id }

/-- A round of the loop of `semexit_myhook`, or what follows it. -/
def exitStep (σ : State) (k : Nat) : Option (State × Outcome) :=
  match σ.exiting[k]? with
  | none => none
  | some (s, ix) =>
    match (σ.undos.pool s).ents[ix]? with
    | some e =>
      (exitApply { σ with exiting := σ.exiting.set k (s, ix + 1) } e).map
        (fun σ' => (σ', .ok))
    | none =>
      some ({ σ with
        undos := dealloc σ.undos s
        exiting := σ.exiting.eraseIdx k }, .ok)

/-- The steps. -/
inductive Op where
  | semget (key nsems : Int) (creat excl : Bool)
  | semop (c : Call)
  | resume (i : Nat) (intr : Bool)
  | setval (idx seq num : Nat) (val : Int)
  | setall (idx seq : Nat) (vals : Nat → Nat)
  | rmid (idx seq : Nat)
  | exitBegin (p : Nat)
  | exitStep (k : Nat)

def exec (inf : Seminfo) (σ : State) : Op → Option (State × Outcome)
  | .semget key nsems creat excl => some (semget inf σ key nsems creat excl)
  | .semop c => semop inf σ c
  | .resume i intr => resume inf σ i intr
  | .setval idx seq num val => some (setval inf σ idx seq num val)
  | .setall idx seq vals => some (setall inf σ idx seq vals)
  | .rmid idx seq => some (rmid inf σ idx seq)
  | .exitBegin p => some (exitBegin σ p)
  | .exitStep k => exitStep σ k

def step (inf : Seminfo) (σ : State) (op : Op) : Option State := (exec inf σ op).map Prod.fst

end FreeBSDKern.Sem
