import Mathlib

/-!
# Undo Structures

The adjustments that System V semaphores owe to a process when it exits. Each process
has at most one undo structure, with an entry for each semaphore it has changed
with `SEM_UNDO`. The structures come from a fixed pool and stand on one of two lists,
`semu_list` for those in use and `semu_free_list`.

An undo structure is named by its place in the pool, and its entries are the
first `un_cnt` of the array. A caller of `semundo_adjust` keeps the name between the
operations of one vector, so the name is passed in and out as in the source. It can
outlive the structure: an entry that reaches zero is removed, and the structure that
loses its last entry goes to the free list.

## Main definitions

* `Seminfo`: The limits, `struct seminfo`.
* `semundoAdjust`: Adjust the entry of a semaphore, `semundo_adjust`.
* `semundoClear`: Forget the entries of a semaphore or of a set, `semundo_clear`.
-/

namespace FreeBSDKern.Sem

open Function

/-- The errors of the three calls. -/
inductive Errno where
  | e2big
  | eagain
  | eexist
  | efbig
  | eidrm
  | eintr
  | einval
  | enoent
  | enospc
  | erange
  deriving DecidableEq, Repr

/-- `struct seminfo`. The defaults keep the narrow fields of the records
    exact: `semval` and the counts of a set are `u_short`, and the fields of an
    undo entry are `short`. -/
structure Seminfo where
  semmni : Nat
  semmns : Nat
  semmnu : Nat
  semmsl : Nat
  semopm : Nat
  semume : Nat
  semvmx : Nat
  semaem : Nat
  semaem_lt : semaem < semvmx
  semvmx_le : semvmx ≤ 32767
  semmsl_le : semmsl ≤ 32767
  semume_le : semume ≤ 32767

theorem Seminfo.semvmx_lt (inf : Seminfo) : inf.semvmx < 65536 :=
  lt_of_le_of_lt inf.semvmx_le (by decide)

/-- `struct undo`. -/
structure Undo where
  adjval : Int
  num : Nat
  id : Nat
  seq : Nat
  deriving DecidableEq, Repr

/-- `struct sem_undo`. -/
structure SemUndo where
  proc : Option Nat
  ents : List Undo
  deriving DecidableEq, Repr

/-- The pool, `semu_list` and `semu_free_list`. -/
structure Undos where
  pool : Nat → SemUndo
  list : List Nat
  free : List Nat

/-- The pool of `seminit`. The counts of the structures are not set there, and
    nothing reads them before `semu_alloc` does. -/
def initUndos (inf : Seminfo) : Undos :=
  { pool := fun _ => ⟨none, []⟩, list := [], free := (List.range inf.semmnu).reverse }

/-- `semu_alloc`. -/
def semuAlloc (u : Undos) (p : Nat) : Option (Undos × Nat) :=
  match u.free with
  | [] => none
  | s :: rest =>
    some ({ pool := update u.pool s ⟨some p, []⟩, list := s :: u.list, free := rest }, s)

/-- `semu_try_free`. The structure is taken off whichever list it is on. -/
def semuTryFree (u : Undos) (s : Nat) : Undos :=
  if (u.pool s).ents ≠ [] then u
  else { u with list := u.list.erase s, free := s :: u.free.erase s }

/-- Take an entry out: the last one moves to its place. -/
def removeEnt (ents : List Undo) (i : Nat) : List Undo :=
  match ents.getLast? with
  | none => []
  | some e => (ents.set i e).dropLast

/-- The loop of `semundo_adjust` and what follows it, on the entries of a
    structure. -/
def adjustEnts (inf : Seminfo) (ents : List Undo) (semid semseq semnum : Nat) (adjval : Int) :
    Except Errno (List Undo) :=
  match ents.findIdx? (fun e => e.id = semid ∧ e.num = semnum) with
  | some i =>
    match ents[i]? with
    | none => .ok ents
    | some e =>
      let adj := if adjval = 0 then 0 else adjval + e.adjval
      if adjval ≠ 0 ∧ (adj > inf.semaem ∨ adj < -inf.semaem) then .error .erange
      else if adj = 0 then .ok (removeEnt ents i)
      else .ok (ents.set i { e with adjval := adj })
  | none =>
    -- Didn't find the right entry - create it
    if adjval = 0 then .ok ents
    else if adjval > inf.semaem ∨ adjval < -inf.semaem then .error .erange
    else if ents.length ≠ inf.semume then .ok (ents ++ [⟨adjval, semnum, semid, semseq⟩])
    else .error .einval

/-- Adjust an entry of a given structure. It is freed when it loses its last entry. -/
def adjustIn (inf : Seminfo) (u : Undos) (s semid semseq semnum : Nat) (adjval : Int) :
    Undos × Option Errno :=
  match adjustEnts inf (u.pool s).ents semid semseq semnum adjval with
  | .error e => (u, some e)
  | .ok ents =>
    let u' := { u with pool := update u.pool s { u.pool s with ents := ents } }
    (if ents = [] ∧ (u.pool s).ents ≠ [] then semuTryFree u' s else u', none)

/-- The undo structure of a process. -/
def undoOf (u : Undos) (p : Nat) : Option Nat := u.list.find? (fun s => (u.pool s).proc = some p)

/-- `semundo_adjust`, with the pointer at the structure in and out. -/
def semundoAdjust (inf : Seminfo) (u : Undos) (suptr : Option Nat) (p semid semseq semnum : Nat)
    (adjval : Int) : Undos × Option Nat × Option Errno :=
  match suptr with
  | some s =>
    let r := adjustIn inf u s semid semseq semnum adjval
    (r.1, some s, r.2)
  | none =>
    match undoOf u p with
    | some s =>
      let r := adjustIn inf u s semid semseq semnum adjval
      (r.1, some s, r.2)
    | none =>
      if adjval = 0 then (u, none, none)
      else match semuAlloc u p with
        | none => (u, none, some .enospc)
        | some (u', s) =>
          let r := adjustIn inf u' s semid semseq semnum adjval
          (r.1, some s, r.2)

/-- The inner loop of `semundo_clear`, from an index on. Behind a removal it goes
    on with the next index, so it does not see the entry that was moved. -/
def clearLoop (semid : Nat) (semnum : Option Nat) : Nat → Nat → List Undo → List Undo
  | 0, _, ents => ents
  | fuel + 1, i, ents =>
    match ents[i]? with
    | none => ents
    | some e =>
      if e.id ≠ semid then clearLoop semid semnum fuel (i + 1) ents
      else if semnum = none ∨ semnum = some e.num then
        let ents' := removeEnt ents i
        if i < ents'.length then clearLoop semid semnum fuel (i + 1) ents'
        else if semnum ≠ none then ents'
        else clearLoop semid semnum fuel (i + 1) ents'
      else if semnum ≠ none then ents
      else clearLoop semid semnum fuel (i + 1) ents

/-- `semundo_clear` at one structure. -/
def clearIn (semid : Nat) (semnum : Option Nat) (u : Undos) (s : Nat) : Undos :=
  let ents := clearLoop semid semnum (u.pool s).ents.length 0 (u.pool s).ents
  let u' := { u with pool := update u.pool s { u.pool s with ents := ents } }
  if ents = [] ∧ (u.pool s).ents ≠ [] then semuTryFree u' s else u'

/-- `semundo_clear`. -/
def semundoClear (u : Undos) (semid : Nat) (semnum : Option Nat) : Undos :=
  u.list.foldl (clearIn semid semnum) u

end FreeBSDKern.Sem
