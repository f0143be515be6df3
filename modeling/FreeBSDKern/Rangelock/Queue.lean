import FreeBSDKern.Lib.Run
import FreeBSDKern.Lib.Tailq

/-!
# Range Locks

The byte-range lock of `kern_rangelock.c`. Requests stand in one queue, granted
or not, and `rl_currdep` names the first that has to wait. Every change of the
queue ends in `rangelock_calc_block`, which walks on from there and grants what
it can.

A request is a record outside the queue until it is enqueued. Where it comes from
(the zone, or the record the thread kept from its last unlock) does not matter, so
an enqueue names any record that is not in the queue. The thread behind a request
sleeps until its record is granted; only the record is modelled.

The two scans of `rangelock_calc_block` follow links until a condition holds, and
neither of them looks for the end of the queue. Running off it is `none`.

## Main definitions

* `rangesOverlap`: The comparison of two ranges.
* `calcBlock`: Grant what can be granted, from `rl_currdep` on.
* `unlock`, `unlockRange`, `enqueue`: The operations.
* `exec`, `Permitted`: The operations as one step, and what their callers keep to.
-/

namespace FreeBSDKern.Rangelock

open Lib Function

/-- `RL_LOCK_READ` and `RL_LOCK_WRITE`. -/
inductive Mode where
  | read
  | write
  deriving DecidableEq, Repr

/-- `struct rl_q_entry`, with `RL_LOCK_GRANTED` apart from the mode. -/
structure Entry where
  start : Int
  stop : Int
  mode : Mode
  granted : Bool
  deriving DecidableEq, Repr

/-- `struct rangelock`: the queue, the first request that waits, and the records
    by their names. -/
structure Lock where
  waiters : List Nat
  currdep : Option Nat
  entry : Nat → Entry

/-- `rangelock_init`. -/
def init : Lock :=
  { waiters := [], currdep := none, entry := fun _ => ⟨0, 0, .read, false⟩ }

/-- `ranges_overlap`. -/
def rangesOverlap (e1 e2 : Entry) : Bool :=
  decide (e1.start < e2.stop) && decide (e2.start < e1.stop)

/-- The scan of a read: the entries up to the first read in the queue. -/
def meetsWrites (ent : Nat → Entry) (e : Entry) : List Nat → Option Bool
  | [] => none
  | x :: xs => match (ent x).mode with
    | .read => some false
    | .write => if rangesOverlap e (ent x) then some true else meetsWrites ent e xs

/-- The scan of a write: the entries before it. -/
def meetsBefore (ent : Nat → Entry) (id : Nat) : List Nat → Option Bool
  | [] => none
  | x :: xs =>
    if x = id then some false
    else if rangesOverlap (ent id) (ent x) then some true
    else meetsBefore ent id xs

/-- Whether a request has to wait. -/
def blocked (l : Lock) (id : Nat) : Option Bool :=
  match (l.entry id).mode with
  | .read => meetsWrites l.entry (l.entry id) l.waiters
  | .write => meetsBefore l.entry id l.waiters

/-- Grant a request. A write moves to the head of the queue. -/
def grant (l : Lock) (id : Nat) : Lock :=
  { l with
    waiters := match (l.entry id).mode with
      | .read => l.waiters
      | .write => id :: l.waiters.erase id
    entry := update l.entry id { l.entry id with granted := true } }

/-- The loop of `rangelock_calc_block`. The next entry is read before the move. -/
def calcLoop : Nat → Lock → Option Nat → Option Lock
  | 0, _, _ => none
  | _ + 1, l, none => some { l with currdep := none }
  | fuel + 1, l, some id =>
    match blocked l id with
    | none => none
    | some true => some { l with currdep := some id }
    | some false => calcLoop fuel (grant l id) (next? l.waiters id)

/-- `rangelock_calc_block`. -/
def calcBlock (l : Lock) : Option Lock := calcLoop (l.waiters.length + 1) l l.currdep

/-- `rangelock_unlock`. -/
def unlock (l : Lock) (id : Nat) : Option Lock :=
  calcBlock { l with waiters := l.waiters.erase id }

/-- `rangelock_unlock_range`: all of the range, or the part behind `stop`. -/
def unlockRange (l : Lock) (id : Nat) (stop : Int) : Option Lock :=
  if (l.entry id).stop = stop then unlock l id
  else calcBlock { l with entry := update l.entry id { l.entry id with stop := stop } }

/-- `rangelock_enqueue`, up to the sleep. -/
def enqueue (l : Lock) (id : Nat) (start stop : Int) (mode : Mode) : Option Lock :=
  calcBlock
    { waiters := l.waiters ++ [id]
      currdep := match l.currdep with
        | none => some id
        | some dep => some dep
      entry := update l.entry id ⟨start, stop, mode, false⟩ }

/-- The calls: `rangelock_rlock`, `rangelock_wlock`, `rangelock_unlock` and
    `rangelock_unlock_range`. -/
inductive Op where
  | rlock (id : Nat) (start stop : Int)
  | wlock (id : Nat) (start stop : Int)
  | unlock (id : Nat)
  | unlockRange (id : Nat) (start stop : Int)
  deriving DecidableEq, Repr

def exec (l : Lock) : Op → Option Lock
  | .rlock id start stop => enqueue l id start stop .read
  | .wlock id start stop => enqueue l id start stop .write
  | .unlock id => unlock l id
  | .unlockRange id _ stop => unlockRange l id stop

/-- The calls that are made: a request for a range with a record that is not in use,
    and the unlock of a granted request, whole or as the assertions of
    `rangelock_unlock_range` have it. -/
def Permitted (l : Lock) : Op → Prop
  | .rlock id start stop => id ∉ l.waiters ∧ start < stop
  | .wlock id start stop => id ∉ l.waiters ∧ start < stop
  | .unlock id => id ∈ l.waiters ∧ (l.entry id).granted = true
  | .unlockRange id start stop => id ∈ l.waiters ∧ (l.entry id).granted = true ∧
      (l.entry id).start = start ∧ stop ≤ (l.entry id).stop

instance (l : Lock) (op : Op) : Decidable (Permitted l op) := by
  cases op <;> unfold Permitted <;> infer_instance

/-- Two entries are compatible if their ranges do not overlap, or both are reads. -/
def Compatible (e1 e2 : Entry) : Prop :=
  rangesOverlap e1 e2 = false ∨ (e1.mode = .read ∧ e2.mode = .read)

theorem rangesOverlap_iff (e1 e2 : Entry) :
    rangesOverlap e1 e2 = true ↔ e1.start < e2.stop ∧ e2.start < e1.stop := by
  unfold rangesOverlap
  rw [Bool.and_eq_true, decide_eq_true_iff, decide_eq_true_iff]

theorem rangesOverlap_comm (e1 e2 : Entry) : rangesOverlap e1 e2 = rangesOverlap e2 e1 := by
  unfold rangesOverlap
  exact Bool.and_comm _ _

theorem Compatible.symm {e1 e2 : Entry} (h : Compatible e1 e2) : Compatible e2 e1 := by
  rcases h with h | h
  · left
    rwa [rangesOverlap_comm]
  · exact Or.inr ⟨h.2, h.1⟩

/-- A shorter range meets less. -/
theorem Compatible.shrink {e1 e2 e1' e2' : Entry} (h : Compatible e1 e2)
    (hm1 : e1'.mode = e1.mode) (hm2 : e2'.mode = e2.mode)
    (hs1 : e1'.start = e1.start) (hs2 : e2'.start = e2.start)
    (ht1 : e1'.stop ≤ e1.stop) (ht2 : e2'.stop ≤ e2.stop) : Compatible e1' e2' := by
  rcases h with h | h
  · left
    rw [Bool.eq_false_iff, ne_eq, rangesOverlap_iff] at h ⊢
    omega
  right
  rw [hm1, hm2]
  exact h

/-- Two ranges that overlap have an offset in common. -/
theorem common_offset {e1 e2 : Entry} (h1 : e1.start < e1.stop) (h2 : e2.start < e2.stop)
    (h : rangesOverlap e1 e2 = true) :
    ∃ off, (e1.start ≤ off ∧ off < e1.stop) ∧ (e2.start ≤ off ∧ off < e2.stop) := by
  rw [rangesOverlap_iff] at h
  refine ⟨max e1.start e2.start, ?_, ?_⟩ <;> omega

/-- The scan of a read sees the writes at the head of the queue and stops at the
    read behind them. -/
theorem meetsWrites_split (ent : Nat → Entry) (e : Entry) (y : Nat) (W post : List Nat)
    (hW : ∀ x ∈ W, (ent x).mode = .write) (hy : (ent y).mode = .read) :
    meetsWrites ent e (W ++ y :: post) = some (W.any (fun x => rangesOverlap e (ent x))) := by
  induction W with
  | nil =>
    rw [List.nil_append, meetsWrites, hy]
    rfl
  | cons x xs ih =>
    rw [List.cons_append, meetsWrites, hW x List.mem_cons_self, List.any_cons]
    have hxs := ih (fun z hz => hW z (List.mem_cons_of_mem _ hz))
    cases hov : rangesOverlap e (ent x) with
    | true => rfl
    | false => exact hxs

/-- The scan of a write sees what stands before it. -/
theorem meetsBefore_split (ent : Nat → Entry) (id : Nat) (pre post : List Nat) (h : id ∉ pre) :
    meetsBefore ent id (pre ++ id :: post) =
      some (pre.any (fun x => rangesOverlap (ent id) (ent x))) := by
  induction pre with
  | nil => exact if_pos rfl
  | cons x xs ih =>
    rw [List.mem_cons, not_or] at h
    rw [List.cons_append, meetsBefore, if_neg (Ne.symm h.1), List.any_cons]
    cases hov : rangesOverlap (ent id) (ent x) with
    | true => rfl
    | false => exact ih h.2

end FreeBSDKern.Rangelock
