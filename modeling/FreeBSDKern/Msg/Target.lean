import FreeBSDKern.Msg.Slots

/-!
# Which Queue a Message Goes To

An identifier names a slot and a sequence number, and a slot that has been removed
may be handed out again with the next number. A call is checked when it begins. If
it sleeps, the slot may hold another queue when it goes on.

A receiver looks at the sequence number again. A sender looks only whether there is
a queue at all, and not even that when its sleep has timed out. What protects it
is `MSG_LOCKED`: a slot that is locked is not handed out, so a sender that has
locked its slot finds its own queue in it or none. A sender that sleeps because
another one has the lock is not protected (`message_to_another_queue`).

The history counts how often each slot has been handed out, and remembers for each
thread what the count was when its call was checked.

## Main definitions

* `History`: A state and what has happened to its slots.
* `Carries`: A slot holds the queue a call has been checked against.
* `Targeted`: What is expected of a step.
* `current`: No sender goes on in the queue of somebody else.

## Theorems

* `history_keeps`: One step keeps the invariant.
* `message_to_its_queue`: The expectation is met by every run of such steps.
-/

namespace FreeBSDKern.Msg

open Lib Function

/-- The call a thread is in. -/
inductive Call where
  | snd (a : SndArgs)
  | rcv (a : RcvArgs)

def Call.msqid : Call → BitVec 32
  | .snd a => a.msqid
  | .rcv a => a.msqid

/-- The slot the identifier of the call names. -/
def Call.slot (c : Call) : Nat := ipcidToIx c.msqid

def Thread.call : Thread → Option Call
  | .done _ _ => none
  | .sndSleep a _ => some (.snd a)
  | .sndCopy a _ _ _ => some (.snd a)
  | .rcvSleep a => some (.rcv a)
  | .rcvCopy a _ _ _ _ => some (.rcv a)

/-- The call of a thread that sleeps. -/
def Thread.asleep : Thread → Option Call
  | .sndSleep a _ => some (.snd a)
  | .rcvSleep a => some (.rcv a)
  | _ => none

/-- The slot a thread has locked. -/
def Thread.holds : Thread → Option Nat
  | .sndSleep a true => some (ipcidToIx a.msqid)
  | .sndCopy a _ _ _ => some (ipcidToIx a.msqid)
  | _ => none

/-- The call a thread begins. -/
def beginsCall : Thread → Op → Option Call
  | .done _ _, .msgsnd a _ _ _ => some (.snd a)
  | .done _ _, .msgrcv a _ _ => some (.rcv a)
  | _, _ => none

/-- The call a step is part of: the one the thread begins, or is in. -/
def inCall (th : Thread) (op : Op) : Option Call := (beginsCall th op).or th.call

/-- A state, how often each slot has been handed out, and how often it had been when
    the call of each thread was checked. -/
structure History where
  s : State
  gen : Nat → Nat
  asked : Nat → Nat

/-- The count at the check of the call that is in progress after a step. -/
def askedAfter (H : History) (op : Nat × Op) : Nat → Nat :=
  match beginsCall (H.s.threads op.1) op.2 with
  | some c => update H.asked op.1 (H.gen c.slot)
  | none => H.asked

/-- The history goes on. A slot that is handed out gets another number. -/
def recordStep (H : History) (op : Nat × Op) (s' : State) : History where
  s := s'
  gen := fun q => if (s'.msqids q).seq = (H.s.msqids q).seq then H.gen q else H.gen q + 1
  asked := askedAfter H op

def stepHistory (cfg : Config) (H : History) (op : Nat × Op) : Option History :=
  (step cfg H.s op).map (recordStep H op)

def startHistory (cfg : Config) : History := ⟨msginit cfg, fun _ => 0, fun _ => 0⟩

/-- The slot of a call holds the queue that the call has been checked against, when
    the count was `asked`. -/
def Carries (H : History) (asked : Nat) (c : Call) : Prop :=
  H.gen c.slot = asked ∧ (H.s.msqids c.slot).qbytes ≠ 0 ∧
    (H.s.msqids c.slot).seq = ipcidToSeq c.msqid

/-- A message is only enqueued in the queue the sender has been checked against, and
    only received from the queue the receiver has been checked against. A call whose
    queue is gone when it wakes up ends with one of the errors for that, or because
    of a signal, or sleeps on, and no queue there is changed by it. -/
structure Targeted (H : History) (op : Nat × Op) (H' : History) : Prop where
  enqueues : ∀ q, (H.s.msqids q).qnum < (H'.s.msqids q).qnum →
    ∃ a, inCall (H.s.threads op.1) op.2 = some (.snd a) ∧ q = (Call.snd a).slot ∧
      Carries H (H'.asked op.1) (.snd a)
  dequeues : ∀ q, (H'.s.msqids q).qnum < (H.s.msqids q).qnum →
    (∃ a, inCall (H.s.threads op.1) op.2 = some (.rcv a) ∧ q = (Call.rcv a).slot ∧
      Carries H (H'.asked op.1) (.rcv a)) ∨
    ∃ msqid permit, op.2 = .ipcRmid msqid permit ∧ q = ipcidToIx msqid
  gone : ∀ c error mac, (H.s.threads op.1).asleep = some c → op.2 = .wake error mac →
    (H.gen c.slot ≠ H.asked op.1 ∨ (H.s.msqids c.slot).qbytes = 0) →
    ((∃ e, H'.s.threads op.1 = .done e 0 ∧
        (e = .eidrm ∨ e = .einval ∨ e = .eintr ∧ error = .interrupted)) ∨
      (H'.s.threads op.1).asleep = some c) ∧
    ∀ q, (H.s.msqids q).qbytes ≠ 0 → H'.s.msqids q = H.s.msqids q

/-- The call fails at once, for its size or, when it need not wait, for the type of
    its message. -/
def Fails (cfg : Config) (s : State) (a : SndArgs) : Prop :=
  (s.msqids (ipcidToIx a.msqid)).qbytes < a.msgsz ∨
    a.mtype.slt 1#64 = true ∧ (s.msqids (ipcidToIx a.msqid)).locked = false ∧
      a.msgsz + (s.msqids (ipcidToIx a.msqid)).cbytes ≤ (s.msqids (ipcidToIx a.msqid)).qbytes ∧
      segsNeeded cfg a.msgsz ≤ s.segs.nfreeMsgmaps ∧ s.freeMsghdrs ≠ none

instance (cfg : Config) (s : State) (a : SndArgs) : Decidable (Fails cfg s a) :=
  inferInstanceAs (Decidable (_ ∨ _ ∧ _ ∧ _ ∧ _ ∧ _))

/-- No sender goes on in a queue other than the one it has been checked against,
    unless it fails at once there or finds it locked by another sender, and no
    receiver does so where the numbers of the slot have come round. -/
def current (cfg : Config) (H : History) (op : Nat × Op) : Bool :=
  match H.s.threads op.1, op.2 with
  | .sndSleep _ _, .wake .interrupted _ => true
  | .sndSleep a own, .wake _ _ =>
    decide (H.gen (ipcidToIx a.msqid) = H.asked op.1 ∨
      (H.s.msqids (ipcidToIx a.msqid)).qbytes = 0 ∨ own = false ∧
        (Fails cfg H.s a ∨ (H.s.msqids (ipcidToIx a.msqid)).locked = true))
  | .rcvSleep _, .wake .interrupted _ => true
  | .rcvSleep a, .wake _ _ =>
    decide (H.gen (ipcidToIx a.msqid) = H.asked op.1 ∨ (H.s.msqids (ipcidToIx a.msqid)).qbytes = 0 ∨
      (H.s.msqids (ipcidToIx a.msqid)).seq ≠ ipcidToSeq a.msqid)
  | _, _ => true

/-! ## The invariant -/

/-- Each locked slot has one thread that has locked it, and finds its own queue there
    or none. -/
structure HistoryOk (H : History) : Prop where
  dead : ∀ q, (H.s.msqids q).qbytes = 0 → (H.s.msqids q).qnum = 0
  held : ∀ t q, (H.s.threads t).holds = some q → (H.s.msqids q).locked = true
  alone : ∀ t t' q, (H.s.threads t).holds = some q → (H.s.threads t').holds = some q → t = t'
  own : ∀ t q, (H.s.threads t).holds = some q → H.gen q = H.asked t ∨ (H.s.msqids q).qbytes = 0
  past : ∀ t c, (H.s.threads t).call = some c → H.asked t ≤ H.gen c.slot
  number : ∀ t c, (H.s.threads t).call = some c → H.gen c.slot = H.asked t →
    (H.s.msqids c.slot).seq = ipcidToSeq c.msqid
  wait : ∀ t a own, H.s.threads t = .sndSleep a own → a.nowait = false

variable {cfg : Config} {H : History} {op : Nat × Op} {s s' : State}

theorem startHistory_ok (cfg : Config) : HistoryOk (startHistory cfg) where
  dead := fun _ _ => rfl
  held := fun _ _ h => nomatch h
  alone := fun _ _ _ h => nomatch h
  own := fun _ _ h => nomatch h
  past := fun _ _ h => nomatch h
  number := fun _ _ h => nomatch h
  wait := nofun

theorem askedAfter_other {t : Nat} (ht : t ≠ op.1) : askedAfter H op t = H.asked t := by
  unfold askedAfter
  cases beginsCall (H.s.threads op.1) op.2 with
  | some c => exact update_of_ne ht _ _
  | none => rfl

/-- What a thread owes to the invariant after its own step. -/
structure ThreadKeeps (H : History) (op : Nat × Op) (s' : State) (th : Thread) : Prop where
  held : ∀ q, th.holds = some q → (s'.msqids q).locked = true ∧
    (∀ t, t ≠ op.1 → (H.s.threads t).holds ≠ some q) ∧
    ((recordStep H op s').gen q = askedAfter H op op.1 ∨ (s'.msqids q).qbytes = 0)
  past : ∀ c, th.call = some c → askedAfter H op op.1 ≤ (recordStep H op s').gen c.slot
  number : ∀ c, th.call = some c → (recordStep H op s').gen c.slot = askedAfter H op op.1 →
    (s'.msqids c.slot).seq = ipcidToSeq c.msqid
  wait : ∀ a own, th = .sndSleep a own → a.nowait = false

variable {q n : Nat} {th : Thread} {c : Call} {b mac permit : Bool} {a : SndArgs} {error : Errno}

/-- A step that changes one slot, gives it a new number only if it is not locked,
    leaves a lock of another thread alone and does not bring a queue to life under
    its old number. -/
theorem HistoryOk.after (h : HistoryOk H) {v : Queue}
    (hafter : After H.s s' (update H.s.msqids q v) op.1 th)
    (hseq : v.seq = (H.s.msqids q).seq ∨ (H.s.msqids q).locked = false)
    (hlive : v.seq = (H.s.msqids q).seq → (H.s.msqids q).qbytes = 0 → v.qbytes = 0)
    (hdead : v.qbytes = 0 → v.qnum = 0)
    (hlock : ∀ t, t ≠ op.1 → (H.s.threads t).holds = some q → v.locked = true)
    (hth : ThreadKeeps H op s' th) : HistoryOk (recordStep H op s') := by
  have hmine : (recordStep H op s').s.threads op.1 = th := hafter.mine
  have hothers : ∀ t, t ≠ op.1 → (recordStep H op s').s.threads t = H.s.threads t := fun t ht =>
    (congrFun hafter.threads t).trans (update_of_ne ht _ _)
  have hself : (recordStep H op s').s.msqids q = v := hafter.self
  have hrest : ∀ q', q' ≠ q → (recordStep H op s').s.msqids q' = H.s.msqids q' :=
    fun q' => hafter.rest
  have hasked : ∀ t, t ≠ op.1 → (recordStep H op s').asked t = H.asked t :=
    fun t => askedAfter_other
  have hgen : ∀ q', H.gen q' ≤ (recordStep H op s').gen q' := by
    intro q'
    change H.gen q' ≤ if _ then _ else _
    split
    · exact le_rfl
    · exact Nat.le_succ _
  -- A slot another thread has locked keeps its number.
  have hkeep : ∀ t q', t ≠ op.1 → (H.s.threads t).holds = some q' →
      ((recordStep H op s').s.msqids q').seq = (H.s.msqids q').seq := by
    intro t q' ht hholds
    by_cases hq' : q' = q
    · rw [hq'] at hholds ⊢
      rw [hself]
      rcases hseq with heq | hfree
      · exact heq
      · exact absurd ((h.held t q hholds).symm.trans hfree) Bool.false_ne_true.symm
    · rw [hrest q' hq']
  refine ⟨fun q' hq' => ?_, fun t q' hholds => ?_, fun t t' q' ht ht' => ?_,
    fun t q' hholds => ?_, fun t c hc => ?_, fun t c hc hg => ?_, fun t a own ht => ?_⟩
  · by_cases heq : q' = q
    · rw [heq, hself] at hq' ⊢
      exact hdead hq'
    rw [hrest q' heq] at hq' ⊢
    exact h.dead q' hq'
  · by_cases ht : t = op.1
    · rw [ht, hmine] at hholds
      exact (hth.held q' hholds).1
    rw [hothers t ht] at hholds
    by_cases heq : q' = q
    · rw [heq] at hholds ⊢
      rw [hself]
      exact hlock t ht hholds
    · rw [hrest q' heq]
      exact h.held t q' hholds
  · by_cases hto : t = op.1
    · by_cases hto' : t' = op.1
      · rw [hto, hto']
      rw [hto, hmine] at ht
      rw [hothers t' hto'] at ht'
      exact absurd ht' ((hth.held q' ht).2.1 t' hto')
    rw [hothers t hto] at ht
    by_cases hto' : t' = op.1
    · rw [hto', hmine] at ht'
      exact absurd ht ((hth.held q' ht').2.1 t hto)
    · rw [hothers t' hto'] at ht'
      exact h.alone t t' q' ht ht'
  · by_cases ht : t = op.1
    · rw [ht, hmine] at hholds
      rw [ht]
      exact (hth.held q' hholds).2.2
    rw [hothers t ht] at hholds
    have hsame := hkeep t q' ht hholds
    have hg : (recordStep H op s').gen q' = H.gen q' := if_pos hsame
    rw [hg, hasked t ht]
    refine (h.own t q' hholds).imp_right (fun hzero => ?_)
    by_cases heq : q' = q
    · rw [heq] at hsame hzero ⊢
      rw [hself] at hsame ⊢
      exact hlive hsame hzero
    · rw [hrest q' heq]
      exact hzero
  · by_cases ht : t = op.1
    · rw [ht, hmine] at hc
      rw [ht]
      exact hth.past c hc
    rw [hothers t ht] at hc
    rw [hasked t ht]
    exact le_trans (h.past t c hc) (hgen c.slot)
  · by_cases ht : t = op.1
    · rw [ht, hmine] at hc
      rw [ht] at hg
      exact hth.number c hc hg
    rw [hothers t ht] at hc
    rw [hasked t ht] at hg
    by_cases heq : ((recordStep H op s').s.msqids c.slot).seq = (H.s.msqids c.slot).seq
    · rw [heq]
      exact h.number t c hc ((if_pos heq).symm.trans hg)
    -- The count has passed the one of the call.
    have hnext : (recordStep H op s').gen c.slot = H.gen c.slot + 1 := if_neg heq
    have := h.past t c hc
    omega
  by_cases hto : t = op.1
  · rw [hto, hmine] at ht
    exact hth.wait a own ht
  · rw [hothers t hto] at ht
    exact h.wait t a own ht

/-! ## One step -/

theorem gen_same (h : (s'.msqids q).seq = (H.s.msqids q).seq) :
    (recordStep H op s').gen q = H.gen q :=
  if_pos h

/-- A thread that is done owes nothing. -/
theorem threadKeeps_done (H : History) (op : Nat × Op) (s' : State) (error : Errno) (n : Nat) :
    ThreadKeeps H op s' (.done error n) where
  held := fun _ h => nomatch h
  past := fun _ h => nomatch h
  number := fun _ h => nomatch h
  wait := nofun

theorem inCall_of_asleep (h : th.asleep = some c) (op : Op) :
    inCall th op = some c ∧ beginsCall th op = none := by
  cases th with
  | sndSleep a own | rcvSleep a => exact ⟨h, rfl⟩
  | _ => cases h

/-- What a thread is owed in the slot of its call: the queue it has been checked
    against, if the count is still the same. -/
structure Checked (H : History) (op : Nat × Op) (c : Call) : Prop where
  call : inCall (H.s.threads op.1) op.2 = some c
  past : askedAfter H op op.1 ≤ H.gen c.slot
  number : H.gen c.slot = askedAfter H op op.1 → (H.s.msqids c.slot).seq = ipcidToSeq c.msqid

/-- A call that begins has just been checked. -/
theorem checked_of_begins (hcall : beginsCall (H.s.threads op.1) op.2 = some c)
    (hseq : (H.s.msqids c.slot).seq = ipcidToSeq c.msqid) :
    Checked H op c ∧ H.gen c.slot = askedAfter H op op.1 := by
  have hasked : H.gen c.slot = askedAfter H op op.1 := by
    unfold askedAfter
    rw [hcall]
    exact (update_self op.1 (H.gen c.slot) H.asked).symm
  exact ⟨⟨by rw [inCall, hcall]; rfl, le_of_eq hasked.symm, fun _ => hseq⟩, hasked⟩

theorem askedAfter_in (hcall : beginsCall (H.s.threads op.1) op.2 = none) :
    askedAfter H op = H.asked := by
  unfold askedAfter
  rw [hcall]

/-- A call that goes on was checked when it began. -/
theorem HistoryOk.checked (h : HistoryOk H) (hbegins : beginsCall (H.s.threads op.1) op.2 = none)
    (hcall : (H.s.threads op.1).call = some c) : Checked H op c where
  call := by rw [inCall, hbegins, hcall]; rfl
  past := by
    rw [askedAfter_in hbegins]
    exact h.past op.1 c hcall
  number := fun hg => by
    rw [askedAfter_in hbegins] at hg
    exact h.number op.1 c hcall hg

/-- What every step is shown to do. -/
abbrev Lands (H : History) (op : Nat × Op) (s' : State) : Prop :=
  HistoryOk (recordStep H op s') ∧ Targeted H op (recordStep H op s')

/-- A step that changes at most the lock of a slot, and of a queue that is in use
    only when that is the one the thread has been checked against. -/
theorem HistoryOk.locks (h : HistoryOk H) (hafter : After H.s s' (update H.s.msqids q
      { H.s.msqids q with locked := b }) op.1 th)
    (hlock : ∀ t, t ≠ op.1 → (H.s.threads t).holds = some q → b = true)
    (hth : ThreadKeeps H op s' th)
    (hgone : ∀ c error mac, (H.s.threads op.1).asleep = some c → op.2 = .wake error mac →
      (H.gen c.slot ≠ H.asked op.1 ∨ (H.s.msqids c.slot).qbytes = 0) → ((∃ e, th = .done e 0 ∧
          (e = .eidrm ∨ e = .einval ∨ e = .eintr ∧ error = .interrupted)) ∨
        th.asleep = some c) ∧
      ((H.s.msqids q).qbytes ≠ 0 → b = (H.s.msqids q).locked)) : Lands H op s' := by
  have hnum : ∀ q', (s'.msqids q').qnum = (H.s.msqids q').qnum := fun q' => by
    by_cases heq : q' = q
    · rw [heq, hafter.self]
    · rw [hafter.rest heq]
  refine ⟨h.after hafter (Or.inl rfl) (fun _ hz => hz) (h.dead q) hlock hth,
    fun q' hq' => ?_, fun q' hq' => ?_, fun c error mac hc hop hg => ?_⟩
  · exact absurd (hnum q') (Int.ne_of_gt hq')
  · exact absurd (hnum q') (Int.ne_of_lt hq')
  rcases hgone c error mac hc hop hg with ⟨hend, hsame⟩
  refine ⟨?_, fun q' hq' => ?_⟩
  · change (∃ e, s'.threads op.1 = _ ∧ _) ∨ (s'.threads op.1).asleep = _
    rw [hafter.mine]
    exact hend
  change s'.msqids q' = H.s.msqids q'
  by_cases heq : q' = q
  · rw [heq] at hq' ⊢
    rw [hafter.self, hsame hq']
  · exact hafter.rest heq

/-- A sender that goes on, in a slot that is locked by another thread if `b` holds. -/
structure Sender (H : History) (op : Nat × Op) (a : SndArgs) (b : Bool) (s : State) : Prop where
  queues : s.msqids = update H.s.msqids (ipcidToIx a.msqid)
    { H.s.msqids (ipcidToIx a.msqid) with locked := b }
  threads : s.threads = H.s.threads
  checked : Checked H op (.snd a)
  locked : b = true → (H.s.msqids (ipcidToIx a.msqid)).locked = true
  free : ∀ t, t ≠ op.1 → (H.s.threads t).holds = some (ipcidToIx a.msqid) → b = true
  found : b = false → H.gen (ipcidToIx a.msqid) = askedAfter H op op.1 ∨
    (H.s.msqids (ipcidToIx a.msqid)).qbytes = 0
  wait : (H.s.threads op.1).asleep ≠ none → a.nowait = false

/-- Only a sleeping sender can miss its queue, and then its slot is empty or locked. -/
theorem Sender.missed (hs : Sender H op a b s) (hc : (H.s.threads op.1).asleep = some c)
    (hg : H.gen c.slot ≠ H.asked op.1 ∨ (H.s.msqids c.slot).qbytes = 0) :
    c = .snd a ∧ ((H.s.msqids (ipcidToIx a.msqid)).qbytes = 0 ∨ b = true) := by
  rcases inCall_of_asleep hc op.2 with ⟨hcall, hbegins⟩
  have heq : c = .snd a := Option.some.inj (hcall.symm.trans hs.checked.call)
  rw [heq] at hg
  refine ⟨heq, ?_⟩
  cases b with
  | true => exact Or.inr rfl
  | false =>
    rcases hs.found rfl with hsame | hzero
    · rw [askedAfter_in hbegins] at hsame
      rcases hg with hne | hzero
      · exact absurd hsame hne
      · exact Or.inl hzero
    · exact Or.inl hzero

/-- A sender that has locked its slot keeps what it owes. -/
theorem Sender.threadKeeps (hs : Sender H op a b s)
    (hqueues : s'.msqids = update H.s.msqids (ipcidToIx a.msqid)
      { H.s.msqids (ipcidToIx a.msqid) with locked := true })
    (hholds : th.holds = if b then none else some (ipcidToIx a.msqid))
    (hcall : th.call = some (.snd a)) (hwait : ∀ own, th = .sndSleep a own → a.nowait = false) :
    ThreadKeeps H op s' th := by
  have hself : s'.msqids (ipcidToIx a.msqid) =
      { H.s.msqids (ipcidToIx a.msqid) with locked := true } := by
    rw [hqueues, update_self]
  have hgen : (recordStep H op s').gen (ipcidToIx a.msqid) = H.gen (ipcidToIx a.msqid) :=
    gen_same (by rw [hself])
  refine ⟨fun q hq => ?_, fun c hc => ?_, fun c hc hg => ?_, fun a' own ha => ?_⟩
  · rw [hholds] at hq
    cases b with
    | true => cases hq
    | false =>
      have heq : ipcidToIx a.msqid = q := Option.some.inj hq
      rw [← heq]
      refine ⟨by rw [hself], fun t ht hh => Bool.false_ne_true (hs.free t ht hh), ?_⟩
      rw [hgen, hself]
      exact hs.found rfl
  · rw [hcall] at hc
    rw [← Option.some.inj hc]
    exact le_trans hs.checked.past (le_of_eq hgen.symm)
  · rw [hcall] at hc
    rw [← Option.some.inj hc] at hg ⊢
    change (s'.msqids (ipcidToIx a.msqid)).seq = _
    rw [hself]
    exact hs.checked.number (hgen.symm.trans hg)
  have heq : a' = a := by
    rw [ha] at hcall
    exact Call.snd.inj (Option.some.inj hcall)
  rw [heq] at ha ⊢
  exact hwait own ha

/-- A sender that is refused, sleeps, copies or is done. -/
theorem Sender.keeps (h : HistoryOk H) (hs : Sender H op a b s) (hout : SndOutcome s op.1 a s') :
    Lands H op s' := by
  have hslot : s.msqids (ipcidToIx a.msqid) =
      { H.s.msqids (ipcidToIx a.msqid) with locked := b } := by
    rw [hs.queues, update_self]
  cases hout with
  | refused error after gone =>
    rcases after with ⟨hqueues, hthreads⟩
    rw [hs.queues] at hqueues
    rw [hs.threads] at hthreads
    rw [hslot] at gone
    refine h.locks ⟨hqueues, hthreads⟩ hs.free (threadKeeps_done H op s' error 0)
      (fun c error' mac hc hop hg => ?_)
    rcases hs.missed hc hg with ⟨_, hmiss⟩
    have hwait := hs.wait (by rw [hc]; exact Option.some_ne_none c)
    refine ⟨Or.inl ⟨error, rfl, ?_⟩, fun hlive => ?_⟩
    · exact (gone hmiss hwait).elim (fun he => Or.inr (Or.inl he)) Or.inl
    rcases hmiss with hzero | hb
    · exact absurd hzero hlive
    · rw [hb, hs.locked hb]
  | sleeps after wait size =>
    rcases after with ⟨hqueues, hthreads⟩
    rw [hslot, hs.queues, update_idem] at hqueues
    rw [hs.threads, hslot] at hthreads
    refine h.locks ⟨hqueues, hthreads⟩ (fun _ _ _ => rfl)
      (hs.threadKeeps hqueues ?_ rfl (fun _ _ => wait)) (fun c error mac hc hop hg => ?_)
    · cases b with
      | true | false => rfl
    rcases hs.missed hc hg with ⟨heq, hmiss⟩
    refine ⟨Or.inr (congrArg some heq.symm), fun hlive => ?_⟩
    rcases hmiss with hzero | hb
    · exact absurd hzero hlive
    · exact (hs.locked hb).symm
  | copies m next left after unlocked size =>
    rcases after with ⟨hqueues, hthreads⟩
    rw [hslot] at unlocked size
    change b = false at unlocked
    rw [hslot, hs.queues, update_idem] at hqueues
    rw [hs.threads] at hthreads
    refine h.locks ⟨hqueues, hthreads⟩ (fun _ _ _ => rfl)
      (hs.threadKeeps hqueues ?_ rfl nofun)
      (fun c error mac hc hop hg => ?_)
    · rw [unlocked]
      rfl
    -- A message with text does not begin to be copied where there is no queue.
    rcases hs.missed hc hg with ⟨_, hzero | hb⟩
    · exact absurd (lt_of_lt_of_le size.1 size.2) (hzero ▸ Nat.lt_irrefl 0)
    · exact absurd (hb.symm.trans unlocked) Bool.false_ne_true.symm
  | enqueued first last cbytes after unlocked carried =>
    rcases after with ⟨hqueues, hthreads⟩
    rw [hslot] at unlocked carried
    change b = false at unlocked
    rw [hslot, hs.queues, update_idem] at hqueues
    rw [hs.threads] at hthreads
    have hfound := (hs.found unlocked).resolve_right carried
    have hafter := After.mk hqueues hthreads
    refine ⟨h.after hafter (Or.inl rfl) (fun _ hz => hz)
        (fun hz => absurd hz carried) (fun t ht hh => hs.free t ht hh)
        (threadKeeps_done H op s' .ok 0),
      fun q hq => ?_, fun q hq => ?_, fun c error mac hc hop hg => ?_⟩
    · exact ⟨a, hs.checked.call, hafter.counted (Int.ne_of_gt hq), hfound, carried,
        hs.checked.number hfound⟩
    · change (s'.msqids q).qnum < (H.s.msqids q).qnum at hq
      rw [hafter.counted (Int.ne_of_lt hq), hafter.self] at hq
      exact absurd hq (Int.not_lt.mpr (Int.le_of_lt (Int.lt_succ _)))
    rcases hs.missed hc hg with ⟨_, hzero | hb⟩
    · exact absurd hzero carried
    · exact absurd (hb.symm.trans unlocked) Bool.false_ne_true.symm

/-- A sender that goes on with the lock it has set. -/
theorem HistoryOk.sender_owns (h : HistoryOk H)
    (hbegins : beginsCall (H.s.threads op.1) op.2 = none)
    (hcall : (H.s.threads op.1).call = some (.snd a))
    (hholds : (H.s.threads op.1).holds = some (ipcidToIx a.msqid))
    (hwait : (H.s.threads op.1).asleep ≠ none → a.nowait = false) :
    Sender H op a false (H.s.setLocked (ipcidToIx a.msqid) false) where
  queues := rfl
  threads := rfl
  checked := h.checked hbegins hcall
  locked := fun hb => absurd hb Bool.false_ne_true
  free := fun t ht hh => absurd (h.alone t op.1 _ hh hholds) ht
  found := fun _ => by
    rw [askedAfter_in hbegins]
    exact h.own op.1 _ hholds
  wait := hwait

/-- A sender that has not locked its slot. -/
theorem HistoryOk.sender_waits (h : HistoryOk H) (hchecked : Checked H op (.snd a))
    (hfound : (H.s.msqids (ipcidToIx a.msqid)).locked = false →
      H.gen (ipcidToIx a.msqid) = askedAfter H op op.1 ∨
        (H.s.msqids (ipcidToIx a.msqid)).qbytes = 0)
    (hwait : (H.s.threads op.1).asleep ≠ none → a.nowait = false) :
    Sender H op a (H.s.msqids (ipcidToIx a.msqid)).locked H.s where
  queues := (relocked H.s.msqids _ _ rfl).symm
  threads := rfl
  checked := hchecked
  locked := fun hb => hb
  free := fun t _ hh => h.held t _ hh
  found := hfound
  wait := hwait

/-- A step after which the thread is done and every queue is as before. -/
theorem HistoryOk.quits (h : HistoryOk H) (hafter : After H.s s' H.s.msqids op.1 (.done error n))
    (hgone : ∀ c error' mac, (H.s.threads op.1).asleep = some c → op.2 = .wake error' mac →
      n = 0 ∧ (error = .eidrm ∨ error = .einval ∨ error = .eintr ∧ error' = .interrupted)) :
    Lands H op s' := by
  rcases hafter with ⟨hqueues, hthreads⟩
  rw [← relocked H.s.msqids 0 _ rfl] at hqueues
  refine h.locks ⟨hqueues, hthreads⟩ (fun t _ hh => h.held t 0 hh)
    (threadKeeps_done H op s' error n) (fun c error' mac hc hop _ => ?_)
  rcases hgone c error' mac hc hop with ⟨hn, he⟩
  rw [hn]
  exact ⟨Or.inl ⟨error, rfl, he⟩, fun _ => rfl⟩

/-- A call is refused before it does anything. -/
theorem HistoryOk.refused (h : HistoryOk H) {c : Call}
    (hbegins : beginsCall (H.s.threads op.1) op.2 = some c)
    (hstep : some (H.s.setThread op.1 (.done error 0)) = some s') : Lands H op s' :=
  h.quits (Option.some.inj hstep ▸ after_setThread H.s op.1 _) (fun _ _ _ hc _ =>
    absurd (hbegins.symm.trans (inCall_of_asleep hc op.2).2) (Option.some_ne_none c))

/-- A call that fails at once leaves everything alone. -/
theorem sndTry_fails {t : Nat} (hfails : Fails cfg s a) (h : sndTry cfg s t a mac = some s') :
    After s s' s.msqids t (.done .einval 0) := by
  unfold sndTry at h
  dsimp only at h
  rcases hfails with hsize | ⟨htype, hunlocked, hroom, hsegs, hhdr⟩
  · rw [if_pos hsize] at h
    rw [← Option.some.inj h]
    exact after_setThread s t _
  split at h
  case isTrue =>
    rw [← Option.some.inj h]
    exact after_setThread s t _
  case isFalse =>
  have henough : ¬ ((s.msqids (ipcidToIx a.msqid)).locked = true ∨
      a.msgsz + (s.msqids (ipcidToIx a.msqid)).cbytes >
        (s.msqids (ipcidToIx a.msqid)).qbytes ∨
      segsNeeded cfg a.msgsz > s.segs.nfreeMsgmaps ∨ s.freeMsghdrs = none) := by
    rintro (hlocked | hroom' | hsegs' | hnone)
    · exact Bool.false_ne_true (hunlocked.symm.trans hlocked)
    · omega
    · omega
    · exact hhdr hnone
  rw [if_neg henough] at h
  split at h
  case h_1 => cases h
  case h_2 m _ =>
  split at h
  case h_1 => cases h
  case h_2 p spot _ =>
  rcases Option.map_eq_some_iff.mp h with ⟨s₁, hgive, rfl⟩
  rcases giveUp_after hgive with ⟨hqueues, hthreads⟩
  refine ⟨?_, hthreads⟩
  have hback := setLocked_same s _ false hunlocked
  rw [← hback, ← setLocked_again s _ true false]
  simp only [State.setLocked, State.setQueue, hqueues]
  rfl

theorem HistoryOk.msgsnd (h : HistoryOk H) {racct : Bool}
    (hbegins : beginsCall (H.s.threads op.1) op.2 = some (.snd a))
    (hstep : msgsnd cfg H.s op.1 a permit racct mac = some s') : Lands H op s' := by
  have hawake : (H.s.threads op.1).asleep = none := by
    by_contra hne
    rcases Option.ne_none_iff_exists'.mp hne with ⟨c, hc⟩
    exact Option.some_ne_none _ (hbegins.symm.trans (inCall_of_asleep hc op.2).2)
  unfold Msg.msgsnd at hstep
  split at hstep
  case isTrue => exact h.refused hbegins hstep
  case isFalse hexists =>
  rw [not_not] at hexists
  split at hstep
  case isTrue => exact h.refused hbegins hstep
  case isFalse =>
  split at hstep
  case isTrue => exact h.refused hbegins hstep
  case isFalse =>
    rcases checked_of_begins hbegins hexists.2.2 with ⟨hchecked, hsame⟩
    exact (h.sender_waits hchecked (fun _ => Or.inl hsame)
      (fun hne => absurd hawake hne)).keeps h (sndTry_outcome hstep)

/-- Without its own lock a sender goes on in the queue it was checked against, or is
    refused or kept waiting by the one that is there now. -/
theorem HistoryOk.sndWake (h : HistoryOk H) {own : Bool} {error : Wake}
    (hthread : H.s.threads op.1 = .sndSleep a own) (hop : op.2 = .wake error mac)
    (hcurrent : current cfg H op = true) (hstep : sndWake cfg H.s op.1 a own error mac = some s') :
    Lands H op s' := by
  have hbegins : beginsCall (H.s.threads op.1) op.2 = none := by rw [hthread]; rfl
  have hcall : (H.s.threads op.1).call = some (.snd a) := by rw [hthread]; rfl
  have hwait : (H.s.threads op.1).asleep ≠ none → a.nowait = false :=
    fun _ => h.wait op.1 a own hthread
  have hwake : ∀ e m, op.2 = .wake e m → e = error := fun e m he => by
    rw [hop] at he
    exact (Op.wake.inj he).1.symm
  cases own with
  | true =>
    have hholds : (H.s.threads op.1).holds = some (ipcidToIx a.msqid) := by rw [hthread]; rfl
    have hsender := h.sender_owns hbegins hcall hholds hwait
    unfold Msg.sndWake at hstep
    dsimp only at hstep
    rw [if_pos rfl] at hstep
    cases error with
    | timedOut => exact hsender.keeps h (sndTry_outcome hstep)
    | interrupted =>
      rw [← Option.some.inj hstep]
      refine h.locks (q := ipcidToIx a.msqid) (b := false) ⟨rfl, rfl⟩ hsender.free
        (threadKeeps_done H op _ .eintr 0) (fun c error' mac' hc hop' hg => ?_)
      refine ⟨Or.inl ⟨_, rfl, Or.inr (Or.inr ⟨rfl, hwake _ _ hop'⟩)⟩, fun hlive => ?_⟩
      exact absurd ((hsender.missed hc hg).2.resolve_right Bool.false_ne_true) hlive
    | woken =>
      dsimp only at hstep
      split at hstep
      case isTrue =>
        rw [← Option.some.inj hstep]
        exact hsender.keeps h
          (.refused .eidrm (after_setThread _ _ _) (fun _ _ => Or.inr rfl))
      case isFalse => exact hsender.keeps h (sndTry_outcome hstep)
  | false =>
    unfold Msg.sndWake at hstep
    dsimp only at hstep
    rw [if_neg Bool.false_ne_true] at hstep
    -- The queue there now is the right one, or the call cannot go on in it.
    have hcases : error ≠ .interrupted →
        Sender H op a (H.s.msqids (ipcidToIx a.msqid)).locked H.s ∨ Fails cfg H.s a := by
      intro hint
      have hcond : H.gen (ipcidToIx a.msqid) = H.asked op.1 ∨
          (H.s.msqids (ipcidToIx a.msqid)).qbytes = 0 ∨ false = false ∧
            (Fails cfg H.s a ∨ (H.s.msqids (ipcidToIx a.msqid)).locked = true) := by
        unfold current at hcurrent
        rw [hthread, hop] at hcurrent
        cases error with
        | interrupted => exact absurd rfl hint
        | timedOut | woken => exact of_decide_eq_true hcurrent
      have hsender := h.sender_waits (h.checked hbegins hcall)
      rw [askedAfter_in hbegins] at hsender
      rcases hcond with hsame | hzero | ⟨_, hfails | hlocked⟩
      · exact Or.inl (hsender (fun _ => Or.inl hsame) hwait)
      · exact Or.inl (hsender (fun _ => Or.inr hzero) hwait)
      · exact Or.inr hfails
      · exact Or.inl (hsender
          (fun hun => absurd (hlocked.symm.trans hun) Bool.false_ne_true.symm) hwait)
    have htry : sndTry cfg H.s op.1 a mac = some s' → error ≠ .interrupted → Lands H op s' := by
      intro htry hint
      rcases hcases hint with hsender | hfails
      · exact hsender.keeps h (sndTry_outcome htry)
      · exact h.quits (sndTry_fails hfails htry) (fun _ _ _ _ _ => ⟨rfl, Or.inr (Or.inl rfl)⟩)
    cases error with
    | timedOut => exact htry hstep nofun
    | interrupted =>
      rw [← Option.some.inj hstep]
      exact h.quits (after_setThread _ _ _)
        (fun _ _ _ _ hop' => ⟨rfl, Or.inr (Or.inr ⟨rfl, hwake _ _ hop'⟩)⟩)
    | woken =>
      dsimp only at hstep
      split at hstep
      case isTrue =>
        rw [← Option.some.inj hstep]
        exact h.quits (after_setThread _ _ _) (fun _ _ _ _ _ => ⟨rfl, Or.inl rfl⟩)
      case isFalse => exact htry hstep nofun

theorem HistoryOk.sndCopied (h : HistoryOk H) {m left : Nat} {next : Int} {ok : Bool}
    (hthread : H.s.threads op.1 = .sndCopy a m next left)
    (hstep : sndCopied cfg H.s op.1 a m next left ok mac = some s') : Lands H op s' := by
  have hbegins : beginsCall (H.s.threads op.1) op.2 = none := by rw [hthread]; rfl
  have hcall : (H.s.threads op.1).call = some (.snd a) := by rw [hthread]; rfl
  have hholds : (H.s.threads op.1).holds = some (ipcidToIx a.msqid) := by rw [hthread]; rfl
  have hawake : (H.s.threads op.1).asleep = none := by rw [hthread]; rfl
  have hsender := h.sender_owns hbegins hcall hholds (fun hne => absurd hawake hne)
  rcases sndCopied_outcome hstep with ⟨next', left', hafter⟩ | hafter | hout
  · -- It goes on copying, and keeps its lock.
    have hlocked := h.held op.1 _ hholds
    rcases hafter with ⟨hqueues, hthreads⟩
    rw [← relocked H.s.msqids _ true hlocked] at hqueues
    exact h.locks ⟨hqueues, hthreads⟩ (fun _ _ _ => rfl)
      (hsender.threadKeeps hqueues rfl rfl nofun)
      (fun c _ _ hc _ _ => absurd (hc.symm.trans hawake) (Option.some_ne_none c))
  · rcases hafter with ⟨hqueues, hthreads⟩
    exact h.locks ⟨hqueues, hthreads⟩ hsender.free (threadKeeps_done H op s' .efault 0)
      (fun c _ _ hc _ _ => absurd (hc.symm.trans hawake) (Option.some_ne_none c))
  · exact hsender.keeps h hout

/-! ## Receivers -/

/-- A receiver owes the invariant what it has been owed. -/
theorem Checked.receives {a : RcvArgs} (hchecked : Checked H op (.rcv a)) (hholds : th.holds = none)
    (hcall : th.call = some (.rcv a))
    (hseq : (s'.msqids (ipcidToIx a.msqid)).seq = (H.s.msqids (ipcidToIx a.msqid)).seq) :
    ThreadKeeps H op s' th := by
  have hgen : (recordStep H op s').gen (ipcidToIx a.msqid) = H.gen (ipcidToIx a.msqid) :=
    gen_same hseq
  refine ⟨fun _ hq => ?_, fun c hc => ?_, fun c hc hg => ?_, fun _ _ hsleep => ?_⟩
  · rw [hholds] at hq
    cases hq
  · rw [hcall] at hc
    rw [← Option.some.inj hc]
    exact le_trans hchecked.past (le_of_eq hgen.symm)
  · rw [hcall] at hc
    rw [← Option.some.inj hc] at hg ⊢
    exact hseq.trans (hchecked.number (hgen.symm.trans hg))
  · rw [hsleep] at hcall
    cases hcall

/-- A receiver that has found its queue there. -/
theorem HistoryOk.rcvTry (h : HistoryOk H) {a : RcvArgs} (hchecked : Checked H op (.rcv a))
    (hfound : H.gen (ipcidToIx a.msqid) = askedAfter H op op.1)
    (hlive : (H.s.msqids (ipcidToIx a.msqid)).qbytes ≠ 0)
    (hstep : rcvTry cfg H.s op.1 a mac = some s') : Lands H op s' := by
  have hnever : ∀ c, (H.s.threads op.1).asleep = some c →
      ¬ (H.gen c.slot ≠ H.asked op.1 ∨ (H.s.msqids c.slot).qbytes = 0) := by
    intro c hc hg
    rcases inCall_of_asleep hc op.2 with ⟨hcall, hbegins⟩
    rw [← Option.some.inj (hchecked.call.symm.trans hcall)] at hg
    rw [askedAfter_in hbegins] at hfound
    exact hg.elim (fun hne => hne hfound) (fun hzero => hlive hzero)
  have hsame : ∀ th, ThreadKeeps H op s' th → After H.s s' H.s.msqids op.1 th → Lands H op s' := by
    intro th hth hafter
    rcases hafter with ⟨hqueues, hthreads⟩
    rw [← relocked H.s.msqids 0 _ rfl] at hqueues
    exact h.locks ⟨hqueues, hthreads⟩ (fun t _ hh => h.held t 0 hh) hth
      (fun c _ _ hc _ hg => absurd hg (hnever c hc))
  cases rcvTry_outcome hstep with
  | waits hafter => exact hsame _ (hchecked.receives rfl rfl (by rw [hafter.queues])) hafter
  | refused error hafter => exact hsame _ (threadKeeps_done H op s' error 0) hafter
  | taken first last cbytes th hafter hth =>
    have hkeeps : ThreadKeeps H op s' th := by
      rcases hth with ⟨m, next, len, n, hth⟩ | ⟨n, hth⟩
      · rw [hth]
        exact hchecked.receives rfl rfl (by rw [hafter.self])
      · rw [hth]
        exact threadKeeps_done H op s' .ok n
    refine ⟨h.after hafter (Or.inl rfl) (fun _ hz => hz) (fun hz => absurd hz hlive)
        (fun t _ hh => h.held t _ hh) hkeeps,
      fun q hq => ?_, fun q hq => ?_, fun c _ _ hc _ hg => absurd hg (hnever c hc)⟩
    · change (H.s.msqids q).qnum < (s'.msqids q).qnum at hq
      rw [hafter.counted (Int.ne_of_gt hq), hafter.self] at hq
      exact absurd hq (Int.not_lt.mpr (Int.le_of_lt (Int.sub_lt_self _ Int.one_pos)))
    · exact Or.inl ⟨a, hchecked.call, hafter.counted (Int.ne_of_lt hq), hfound, hlive,
        hchecked.number hfound⟩

theorem HistoryOk.msgrcv (h : HistoryOk H) {a : RcvArgs}
    (hbegins : beginsCall (H.s.threads op.1) op.2 = some (.rcv a))
    (hstep : msgrcv cfg H.s op.1 a permit mac = some s') : Lands H op s' := by
  unfold Msg.msgrcv at hstep
  split at hstep
  case isTrue => exact h.refused hbegins hstep
  case isFalse hexists =>
  rw [not_not] at hexists
  split at hstep
  case isTrue => exact h.refused hbegins hstep
  case isFalse =>
    rcases checked_of_begins hbegins hexists.2.2 with ⟨hchecked, hsame⟩
    exact h.rcvTry hchecked hsame hexists.2.1 hstep

theorem HistoryOk.rcvWake (h : HistoryOk H) {a : RcvArgs} {error : Wake} {interrupted : Bool}
    (hthread : H.s.threads op.1 = .rcvSleep a) (hop : op.2 = .wake error mac)
    (hint : interrupted = true ↔ error = .interrupted) (hcurrent : current cfg H op = true)
    (hstep : Msg.rcvWake cfg H.s op.1 a interrupted mac = some s') : Lands H op s' := by
  have hbegins : beginsCall (H.s.threads op.1) op.2 = none := by rw [hthread]; rfl
  have hcall : (H.s.threads op.1).call = some (.rcv a) := by rw [hthread]; rfl
  have hgoes : Msg.rcvWake cfg H.s op.1 a false mac = some s' → error ≠ .interrupted →
      Lands H op s' := by
    intro hwake hne
    have hcond : H.gen (ipcidToIx a.msqid) = H.asked op.1 ∨
        (H.s.msqids (ipcidToIx a.msqid)).qbytes = 0 ∨
        (H.s.msqids (ipcidToIx a.msqid)).seq ≠ ipcidToSeq a.msqid := by
      unfold current at hcurrent
      rw [hthread, hop] at hcurrent
      cases error with
      | interrupted => exact absurd rfl hne
      | timedOut | woken => exact of_decide_eq_true hcurrent
    unfold Msg.rcvWake at hwake
    rw [if_neg Bool.false_ne_true] at hwake
    split at hwake
    case isTrue =>
      rw [← Option.some.inj hwake]
      exact h.quits (after_setThread _ _ _) (fun _ _ _ _ _ => ⟨rfl, Or.inl rfl⟩)
    case isFalse hthere =>
    rw [not_or, not_not] at hthere
    have hsame : H.gen (ipcidToIx a.msqid) = H.asked op.1 := by
      rcases hcond with hsame | hzero | hne
      · exact hsame
      · exact absurd hzero hthere.1
      · exact absurd hthere.2 hne
    refine h.rcvTry (h.checked hbegins hcall) ?_ hthere.1 hwake
    rw [askedAfter_in hbegins]
    exact hsame
  cases interrupted with
  | false => exact hgoes hstep (fun he => Bool.false_ne_true (hint.mpr he))
  | true =>
    rw [← Option.some.inj hstep]
    refine h.quits (after_setThread _ _ _) (fun _ error' _ _ hop' => ?_)
    rw [hop] at hop'
    exact ⟨rfl, Or.inr (Or.inr ⟨rfl, (Op.wake.inj hop').1.symm.trans (hint.mp rfl)⟩)⟩

theorem HistoryOk.rcvCopied (h : HistoryOk H) {a : RcvArgs} {m len : Nat} {next : Int} {ok : Bool}
    (hthread : H.s.threads op.1 = .rcvCopy a m next len n)
    (hstep : rcvCopied cfg H.s op.1 a m next len n ok = some s') : Lands H op s' := by
  have hbegins : beginsCall (H.s.threads op.1) op.2 = none := by rw [hthread]; rfl
  have hcall : (H.s.threads op.1).call = some (.rcv a) := by rw [hthread]; rfl
  have hawake : (H.s.threads op.1).asleep = none := by rw [hthread]; rfl
  rcases rcvCopied_outcome hstep with ⟨th, ⟨hqueues, hthreads⟩, hth⟩
  have hkeeps : ThreadKeeps H op s' th := by
    rcases hth with ⟨m', next', len', n', hth⟩ | ⟨error, n', hth⟩
    · rw [hth]
      exact (h.checked hbegins hcall).receives rfl rfl (by rw [hqueues])
    · rw [hth]
      exact threadKeeps_done H op s' error n'
  rw [← relocked H.s.msqids 0 _ rfl] at hqueues
  exact h.locks ⟨hqueues, hthreads⟩ (fun t _ hh => h.held t 0 hh) hkeeps
    (fun c _ _ hc _ _ => absurd (hc.symm.trans hawake) (Option.some_ne_none c))

/-! ## The other calls -/

/-- The number of a slot changes when it is handed out. -/
theorem seq_changes (n : Nat) : (n + 1) % 2 ^ 15 ≠ n := by omega

section

variable (h : HistoryOk H) (hthread : H.s.threads op.1 = .done error n)
include h hthread

/-- A call of a thread that is in no other one, which changes a slot but counts no
    message in or out there. -/
theorem HistoryOk.manages {error' : Errno} {n' : Nat}
    {v : Queue}
    (hafter : After H.s s' (update H.s.msqids q v) op.1 (.done error' n'))
    (hseq : v.seq = (H.s.msqids q).seq ∨ (H.s.msqids q).locked = false)
    (hlive : v.seq = (H.s.msqids q).seq → (H.s.msqids q).qbytes = 0 → v.qbytes = 0)
    (hdead : v.qbytes = 0 → v.qnum = 0) (hlock : (H.s.msqids q).locked = true → v.locked = true)
    (hin : v.qnum ≤ (H.s.msqids q).qnum) (hout : v.qnum < (H.s.msqids q).qnum →
      ∃ msqid permit, op.2 = .ipcRmid msqid permit ∧ q = ipcidToIx msqid) : Lands H op s' := by
  refine ⟨h.after hafter hseq hlive hdead (fun t _ hh => hlock (h.held t q hh))
      (threadKeeps_done H op s' error' n'),
    fun q' hq' => ?_, fun q' hq' => ?_, fun c _ _ hc _ _ => ?_⟩
  · change (H.s.msqids q').qnum < (s'.msqids q').qnum at hq'
    rw [hafter.counted (Int.ne_of_gt hq'), hafter.self] at hq'
    exact absurd hin (Int.not_le.mpr hq')
  · change (s'.msqids q').qnum < (H.s.msqids q').qnum at hq'
    have heq := hafter.counted (Int.ne_of_lt hq')
    rw [heq, hafter.self] at hq'
    rw [heq]
    exact Or.inr (hout hq')
  · rw [hthread] at hc
    cases hc

theorem HistoryOk.msgget (key : Int)
    (creat excl permit racct : Bool) (hstep : msgget cfg H.s op.1 key creat excl permit racct = s')
    : Lands H op s' := by
  rcases msgget_outcome cfg H.s op.1 key creat excl permit racct with
    ⟨error', n', hsame | ⟨q, hfree, hunlocked, hafter⟩⟩
  · rw [hstep] at hsame
    exact h.quits hsame (fun c _ _ hc _ => nomatch (hthread ▸ hc))
  rw [hstep] at hafter
  have hdead := h.dead q hfree
  refine h.manages hthread hafter (Or.inr hunlocked) (fun hseq => absurd hseq (seq_changes _))
    (fun _ => rfl) (fun hl => absurd (hl.symm.trans hunlocked) Bool.false_ne_true.symm)
    (Int.le_of_eq hdead.symm) (fun hlt => ?_)
  rw [hdead] at hlt
  exact absurd hlt (Int.lt_irrefl 0)

theorem HistoryOk.ipcSet (msqid : BitVec 32) (permit priv : Bool) (qbytes : Nat)
    (hstep : ipcSet cfg H.s op.1 msqid permit priv qbytes = s') : Lands H op s' := by
  rcases ipcSet_outcome cfg H.s op.1 msqid permit priv qbytes with
    ⟨error', n', hsame | ⟨hexists, qbytes', hpos, hafter⟩⟩
  · rw [hstep] at hsame
    exact h.quits hsame (fun c _ _ hc _ => nomatch (hthread ▸ hc))
  rw [hstep] at hafter
  exact h.manages hthread hafter (Or.inl rfl) (fun _ hzero => absurd hzero hexists.2.1)
    (fun hzero => absurd hzero hpos) (fun hl => hl) (Int.le_refl _)
    (fun hlt => absurd hlt (Int.lt_irrefl _))

theorem HistoryOk.ipcRmid {msqid : BitVec 32} (hop : op.2 = .ipcRmid msqid permit)
    (hstep : ipcRmid cfg H.s op.1 msqid permit = some s') : Lands H op s' := by
  rcases ipcRmid_outcome hstep with
    ⟨error', n', hsame | ⟨hexists, hcount, cbytes, hafter⟩⟩
  · exact h.quits hsame (fun c _ _ hc _ => nomatch (hthread ▸ hc))
  · exact h.manages hthread hafter (Or.inl rfl) (fun _ _ => rfl) (fun _ => rfl) (fun hl => hl)
      hcount (fun _ => ⟨msqid, permit, hop, rfl⟩)

end

/-! ## Runs -/

/-- What a thread cannot do where it stands changes nothing. -/
theorem HistoryOk.stays (h : HistoryOk H) (hbegins : beginsCall (H.s.threads op.1) op.2 = none)
    (hawake : ∀ error mac, op.2 = .wake error mac → (H.s.threads op.1).asleep = none)
    (hstep : H.s = s') : Lands H op s' := by
  rw [← hstep]
  have hqueues : H.s.msqids = update H.s.msqids 0
      { H.s.msqids 0 with locked := (H.s.msqids 0).locked } := (relocked H.s.msqids 0 _ rfl).symm
  have hgen : ∀ q, (recordStep H op H.s).gen q = H.gen q := fun q => gen_same rfl
  have hkeeps : ThreadKeeps H op H.s (H.s.threads op.1) := by
    refine ⟨fun q hq => ⟨h.held op.1 q hq, fun t ht hh => ht (h.alone t op.1 q hh hq), ?_⟩,
      fun c hc => ?_, fun c hc hg => ?_, fun a own ha => h.wait op.1 a own ha⟩
    · rw [hgen, askedAfter_in hbegins]
      exact h.own op.1 q hq
    · rw [hgen, askedAfter_in hbegins]
      exact h.past op.1 c hc
    · rw [hgen, askedAfter_in hbegins] at hg
      exact h.number op.1 c hc hg
  exact h.locks ⟨hqueues, (update_eq_self op.1 H.s.threads).symm⟩
    (fun t _ hh => h.held t 0 hh) hkeeps
    (fun c error mac hc hop _ => absurd (hc.symm.trans (hawake error mac hop))
      (Option.some_ne_none c))

/-- One step of a call that goes on where it may keeps the books and meets the
    expectation. -/
theorem history_keeps {H' : History} (h : HistoryOk H) (hcurrent : current cfg H op = true)
    (hstep : stepHistory cfg H op = some H') : HistoryOk H' ∧ Targeted H op H' := by
  rcases Option.map_eq_some_iff.mp hstep with ⟨s', hs', rfl⟩
  rcases op with ⟨t, o⟩
  cases hthread : H.s.threads t with
  | done error n =>
    cases o with
    | msgget key creat excl permit racct =>
      simp only [step, hthread, Option.some.injEq] at hs'
      exact h.msgget hthread key creat excl permit racct hs'
    | ipcRmid msqid permit =>
      simp only [step, hthread] at hs'
      exact h.ipcRmid hthread rfl hs'
    | ipcSet msqid permit priv qbytes =>
      simp only [step, hthread, Option.some.injEq] at hs'
      exact h.ipcSet hthread msqid permit priv qbytes hs'
    | msgsnd a permit racct mac =>
      simp only [step, hthread] at hs'
      exact h.msgsnd (by simp only [hthread, beginsCall]) hs'
    | msgrcv a permit mac =>
      simp only [step, hthread] at hs'
      exact h.msgrcv (by simp only [hthread, beginsCall]) hs'
    | wake error' mac =>
      simp only [step, hthread, Option.some.injEq] at hs'
      exact h.stays (by simp only [hthread, beginsCall])
        (fun _ _ _ => by simp only [hthread, Thread.asleep]) hs'
    | copied ok mac =>
      simp only [step, hthread, Option.some.injEq] at hs'
      exact h.stays (by simp only [hthread, beginsCall]) (by rintro _ _ ⟨⟩) hs'
  | sndSleep a own =>
    cases o with
    | wake error mac =>
      simp only [step, hthread] at hs'
      exact h.sndWake hthread rfl hcurrent hs'
    | _ =>
      simp only [step, hthread, Option.some.injEq] at hs'
      exact h.stays (by simp only [hthread, beginsCall]) (by rintro _ _ ⟨⟩) hs'
  | sndCopy a m next left =>
    cases o with
    | copied ok mac =>
      simp only [step, hthread] at hs'
      exact h.sndCopied hthread hs'
    | _ =>
      simp only [step, hthread, Option.some.injEq] at hs'
      exact h.stays (by simp only [hthread, beginsCall])
        (fun _ _ _ => by simp only [hthread, Thread.asleep]) hs'
  | rcvSleep a =>
    cases o with
    | wake error mac =>
      simp only [step, hthread] at hs'
      refine h.rcvWake hthread rfl ?_ hcurrent hs'
      cases error with
      | interrupted => exact iff_of_true rfl rfl
      | _ => exact iff_of_false Bool.false_ne_true (by rintro ⟨⟩)
    | _ =>
      simp only [step, hthread, Option.some.injEq] at hs'
      exact h.stays (by simp only [hthread, beginsCall]) (by rintro _ _ ⟨⟩) hs'
  | rcvCopy a m next len n =>
    cases o with
    | copied ok mac =>
      simp only [step, hthread] at hs'
      exact h.rcvCopied hthread hs'
    | _ =>
      simp only [step, hthread, Option.some.injEq] at hs'
      exact h.stays (by simp only [hthread, beginsCall])
        (fun _ _ _ => by simp only [hthread, Thread.asleep]) hs'

/-- In a run whose calls go on only where they may, every step enqueues and dequeues
    in the queue its call was checked against. -/
theorem message_to_its_queue (cfg : Config) (ops : List (Nat × Op)) (op : Nat × Op)
    (H H' : History)
    (hcurrent : EveryStep (stepHistory cfg) (fun H op => current cfg H op = true)
      (startHistory cfg) (ops ++ [op]))
    (hrun : runOps (stepHistory cfg) (startHistory cfg) ops = some H)
    (hstep : stepHistory cfg H op = some H') : Targeted H op H' := by
  rcases everyStep_append (stepHistory cfg) _ [op] ops _ H hcurrent hrun with ⟨hall, hlast⟩
  have hok := runOps_invariant_of (stepHistory cfg) (fun H op => current cfg H op = true) HistoryOk
    (fun _ _ _ hok hc hs => (history_keeps hok hc hs).1) ops (startHistory cfg) H
    (startHistory_ok cfg) hall hrun
  exact (history_keeps hok hlast.1 hstep).2

/-- A queue is full, a sender waits for room, and the queue is removed. The sender has
    locked the slot, so the next queue gets another one. -/
def fullQueue : List (Nat × Op) :=
  [(0, .msgget 5 true false true true),
    (1, .msgsnd ⟨65536#32, 8, false, 3#64⟩ true true true), (1, .copied true true),
    (1, .msgsnd ⟨65536#32, 2048, false, 3#64⟩ true true true), (0, .ipcRmid 65536#32 true),
    (0, .msgget 6 true false true true)]

theorem message_to_its_queue_example :
    ∃ H H', runOps (stepHistory msginfo) (startHistory msginfo) fullQueue = some H ∧
      stepHistory msginfo H (1, .wake .woken true) = some H' ∧
      Targeted H (1, .wake .woken true) H' := by
  have hcurrent : EveryStep (stepHistory msginfo) (fun H op => current msginfo H op = true)
      (startHistory msginfo) (fullQueue ++ [(1, .wake .woken true)]) := by
    decide
  have hsome : (runOps (stepHistory msginfo) (startHistory msginfo) fullQueue).isSome = true := by
    decide
  have hnext : ∀ H ∈ runOps (stepHistory msginfo) (startHistory msginfo) fullQueue,
      (stepHistory msginfo H (1, .wake .woken true)).isSome = true := by
    decide
  rcases Option.isSome_iff_exists.mp hsome with ⟨H, hrun⟩
  rcases Option.isSome_iff_exists.mp (hnext H hrun) with ⟨H', hstep⟩
  exact ⟨H, H', hrun, hstep, message_to_its_queue msginfo _ _ H H' hcurrent hrun hstep⟩

/-- A sender waits because another one is copying its message in. The queue is removed,
    the other sender gives up its lock, and the slot is handed out again. -/
def reusedSlot : List (Nat × Op) :=
  [(0, .msgget 5 true false true true), (1, .msgsnd ⟨65536#32, 8, false, 3#64⟩ true true true),
    (2, .msgsnd ⟨65536#32, 8, false, 4#64⟩ true true true), (0, .ipcRmid 65536#32 true),
    (1, .copied true true), (0, .msgget 6 true false true true), (2, .wake .woken true)]

/-- The message goes to the new queue. -/
theorem message_to_another_queue : ¬ ∀ (ops : List (Nat × Op)) (op : Nat × Op) (H H' : History),
      runOps (stepHistory msginfo) (startHistory msginfo) ops = some H →
      stepHistory msginfo H op = some H' → Targeted H op H' := by
  intro h
  have hsome : (runOps (stepHistory msginfo) (startHistory msginfo) reusedSlot).isSome = true := by
    decide
  have hnext : ∀ H ∈ runOps (stepHistory msginfo) (startHistory msginfo) reusedSlot,
      (stepHistory msginfo H (2, .copied true true)).isSome = true := by
    decide
  have hcounts : ∀ H ∈ runOps (stepHistory msginfo) (startHistory msginfo) reusedSlot,
      ∀ H' ∈ stepHistory msginfo H (2, .copied true true),
        (H.s.msqids 0).qnum < (H'.s.msqids 0).qnum ∧ H.gen 0 ≠ H'.asked 2 := by
    decide
  rcases Option.isSome_iff_exists.mp hsome with ⟨H, hrun⟩
  rcases Option.isSome_iff_exists.mp (hnext H hrun) with ⟨H', hstep⟩
  rcases hcounts H hrun H' hstep with ⟨hmore, hother⟩
  rcases (h reusedSlot _ H H' hrun hstep).enqueues 0 hmore with ⟨a, _, hslot, hgen, _⟩
  rw [← hslot] at hgen
  exact hother hgen

end FreeBSDKern.Msg
