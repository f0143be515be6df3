import FreeBSDKern.Msg.Run

/-!
# What a Step Does to the Queues

The records of the queues and the place of the thread that runs, after each of the
calls and each of their continuations. Headers and segments are left out: whose
message goes to which queue can be told without them, and so can it whether a panic
is far or near.

A sender is refused, goes to sleep, begins to copy or enqueues its message, and
only the last of these changes more than `MSG_LOCKED` of the slot its identifier
names. A receiver takes a message from that slot or leaves all of them alone.

## Main definitions

* `After`: The queues and the thread after a step.
* `SndOutcome`, `RcvOutcome`: What becomes of a sender and of a receiver.

## Theorems

* `sndTry_outcome`, `sndCopied_outcome`, `rcvTry_outcome`: The calls.
* `msgget_outcome`, `ipcRmid_outcome`, `ipcSet_outcome`: The others.
-/

namespace FreeBSDKern.Msg

open Lib Function

variable {cfg : Config} {s s' : State} {t : Nat}

/-- The queues and where thread `t` stands after a step, which leaves the other
    threads where they are. -/
structure After (s s' : State) (msqids : Nat → Queue) (t : Nat) (th : Thread) : Prop where
  queues : s'.msqids = msqids
  threads : s'.threads = update s.threads t th

variable {q q' : Nat} {qs : Nat → Queue} {v : Queue} {th : Thread}

theorem After.mine (h : After s s' qs t th) : s'.threads t = th := by
  rw [h.threads, update_self]

section

variable (h : After s s' (update s.msqids q v) t th)
include h

theorem After.self : s'.msqids q = v := by
  rw [h.queues, update_self]

theorem After.rest (hne : q' ≠ q) :
    s'.msqids q' = s.msqids q' := by
  rw [h.queues, update_of_ne hne]

/-- Messages are counted in or out only in the slot that is changed. -/
theorem After.counted (hne : (s'.msqids q').qnum ≠ (s.msqids q').qnum) : q' = q := by
  by_contra hq
  exact hne (by rw [h.rest hq])

end

/-- What a sender has come to in its slot. -/
inductive SndOutcome (s : State) (t : Nat) (a : SndArgs) (s' : State) : Prop
  | refused (error : Errno) (after : After s s' s.msqids t (.done error 0))
      (gone : (s.msqids (ipcidToIx a.msqid)).qbytes = 0 ∨
        (s.msqids (ipcidToIx a.msqid)).locked = true → a.nowait = false →
        error = .einval ∨ error = .eidrm)
  | sleeps (after : After s s' (update s.msqids (ipcidToIx a.msqid)
        { s.msqids (ipcidToIx a.msqid) with locked := true }) t
        (.sndSleep a (!(s.msqids (ipcidToIx a.msqid)).locked)))
      (wait : a.nowait = false) (size : a.msgsz ≤ (s.msqids (ipcidToIx a.msqid)).qbytes)
  | copies (msghdr : Nat) (next : Int) (left : Nat)
      (after : After s s' (update s.msqids (ipcidToIx a.msqid)
        { s.msqids (ipcidToIx a.msqid) with locked := true }) t (.sndCopy a msghdr next left))
      (unlocked : (s.msqids (ipcidToIx a.msqid)).locked = false)
      (size : 0 < a.msgsz ∧ a.msgsz ≤ (s.msqids (ipcidToIx a.msqid)).qbytes)
  | enqueued (first last : Option Nat) (cbytes : Int)
      (after : After s s' (update s.msqids (ipcidToIx a.msqid)
        { s.msqids (ipcidToIx a.msqid) with
          first := first, last := last, cbytes := cbytes,
          qnum := (s.msqids (ipcidToIx a.msqid)).qnum + 1 }) t (.done .ok 0))
      (unlocked : (s.msqids (ipcidToIx a.msqid)).locked = false)
      (carried : (s.msqids (ipcidToIx a.msqid)).qbytes ≠ 0)

/-- What a receiver has come to. -/
inductive RcvOutcome (s : State) (t : Nat) (a : RcvArgs) (s' : State) : Prop
  | waits (after : After s s' s.msqids t (.rcvSleep a))
  | refused (error : Errno) (after : After s s' s.msqids t (.done error 0))
  | taken (first last : Option Nat) (cbytes : Int) (th : Thread)
      (after : After s s' (update s.msqids (ipcidToIx a.msqid)
        { s.msqids (ipcidToIx a.msqid) with
          first := first, last := last, cbytes := cbytes,
          qnum := (s.msqids (ipcidToIx a.msqid)).qnum - 1 }) t th)
      (thread : (∃ msghdr next len msgsz, th = .rcvCopy a msghdr next len msgsz) ∨
        ∃ retval, th = .done .ok retval)

/-! ## Headers and segments aside -/

theorem after_setThread (s : State) (t : Nat) (th : Thread) :
    After s (s.setThread t th) s.msqids t th := ⟨rfl, rfl⟩

variable {m : Nat} {a : SndArgs} {mac : Bool} {next : Int}

theorem msgFreehdr_same (h : msgFreehdr cfg s m = some s') :
    s'.msqids = s.msqids ∧ s'.threads = s.threads := by
  unfold msgFreehdr at h
  split at h
  case h_1 => cases h
  case h_2 =>
  split at h
  case isTrue => cases h
  case isFalse =>
    rw [← Option.some.inj h]
    exact ⟨rfl, rfl⟩

theorem giveUp_after {error : Errno} (h : giveUp cfg s t m error = some s') :
    After s s' s.msqids t (.done error 0) := by
  rcases Option.map_eq_some_iff.mp h with ⟨s₁, hfree, rfl⟩
  rcases msgFreehdr_same hfree with ⟨hq, ht⟩
  exact ⟨hq, by rw [← ht]; rfl⟩

/-- A lock set and cleared again. -/
theorem relocked (msqids : Nat → Queue) (q : Nat) (b : Bool) (h : (msqids q).locked = b) :
    update msqids q { msqids q with locked := b } = msqids := by
  refine Function.update_eq_self_iff.mpr ?_
  rw [← h]

/-! ## Senders -/

theorem enqueue_same (s : State) (q m : Nat) :
    ∃ first last cbytes, (enqueue s q m).msqids = update s.msqids q
      { s.msqids q with first := first, last := last, cbytes := cbytes,
                        qnum := (s.msqids q).qnum + 1 } ∧
      (enqueue s q m).threads = s.threads := by
  unfold enqueue
  dsimp only
  split
  · exact ⟨_, _, _, rfl, rfl⟩
  · exact ⟨_, _, _, rfl, rfl⟩

theorem sndFinish_outcome (h : sndFinish cfg s t a m mac = some s') :
    SndOutcome (s.setLocked (ipcidToIx a.msqid) false) t a s' := by
  have hunlocked : ((s.setLocked (ipcidToIx a.msqid) false).msqids
      (ipcidToIx a.msqid)).locked = false := by
    simp only [State.setLocked, State.setQueue, update_self]
  unfold sndFinish at h
  dsimp only at h
  generalize s.setLocked (ipcidToIx a.msqid) false = s₁ at h hunlocked ⊢
  split at h
  case isTrue => exact .refused .eidrm (giveUp_after h) (fun _ _ => Or.inr rfl)
  case isFalse hq =>
  split at h
  case isTrue =>
    refine .refused .eacces (giveUp_after h) (fun hgone => ?_)
    rcases hgone with hzero | hlocked
    · exact absurd hzero hq
    · exact absurd (hlocked.symm.trans hunlocked) Bool.false_ne_true.symm
  case isFalse =>
  rw [← Option.some.inj h]
  rcases enqueue_same s₁ (ipcidToIx a.msqid) m with ⟨first, last, cbytes, hqueues, hthreads⟩
  exact .enqueued first last cbytes
    ⟨hqueues, by rw [← hthreads]; rfl⟩ hunlocked hq

/-- What a sender comes to depends on the queues and the threads alone. -/
theorem SndOutcome.congr {s₁ : State} (h : SndOutcome s₁ t a s') (hq : s₁.msqids = s.msqids)
    (ht : s₁.threads = s.threads) : SndOutcome s t a s' := by
  cases h with
  | refused error after gone =>
    rw [hq] at gone
    exact .refused error ⟨after.queues.trans hq, by rw [after.threads, ht]⟩ gone
  | sleeps after wait size =>
    rcases after with ⟨hqueues, hthreads⟩
    rw [hq] at hqueues size hthreads
    exact .sleeps ⟨hqueues, by rw [hthreads, ht]⟩ wait size
  | copies msghdr next left after unlocked size =>
    rcases after with ⟨hqueues, hthreads⟩
    rw [hq] at hqueues unlocked size
    exact .copies msghdr next left ⟨hqueues, by rw [hthreads, ht]⟩ unlocked size
  | enqueued first last cbytes after unlocked carried =>
    rcases after with ⟨hqueues, hthreads⟩
    rw [hq] at hqueues unlocked carried
    exact .enqueued first last cbytes ⟨hqueues, by rw [hthreads, ht]⟩ unlocked carried

theorem setLocked_again (s : State) (q : Nat) (b b' : Bool) :
    ((s.setLocked q b).setLocked q b').msqids = (s.setLocked q b').msqids := by
  simp only [State.setLocked, State.setQueue, update_self, update_idem]

theorem setLocked_same (s : State) (q : Nat) (b : Bool) (h : (s.msqids q).locked = b) :
    (s.setLocked q b).msqids = s.msqids :=
  relocked s.msqids q b h

theorem sndTry_outcome (h : sndTry cfg s t a mac = some s') : SndOutcome s t a s' := by
  unfold sndTry at h
  dsimp only at h
  split at h
  case isTrue =>
    rw [← Option.some.inj h]
    exact .refused .einval (after_setThread s t _) (fun _ _ => Or.inl rfl)
  case isFalse hsize =>
  split at h
  case isTrue =>
    split at h
    case isTrue hnowait =>
      rw [← Option.some.inj h]
      exact .refused .eagain (after_setThread s t _) (fun _ hwait =>
        absurd (hwait.symm.trans hnowait) Bool.false_ne_true)
    case isFalse hwait =>
      rw [← Option.some.inj h]
      exact .sleeps ⟨rfl, rfl⟩ (Bool.not_eq_true _ ▸ hwait) (not_lt.mp hsize)
  case isFalse hgot =>
  rw [not_or] at hgot
  have hunlocked := Bool.not_eq_true _ ▸ hgot.1
  split at h
  case h_1 => cases h
  case h_2 m _ =>
  split at h
  case h_1 => cases h
  case h_2 p spot _ =>
  split at h
  case isTrue =>
    rcases Option.map_eq_some_iff.mp h with ⟨s₁, hgive, rfl⟩
    rcases giveUp_after hgive with ⟨hqueues, hthreads⟩
    refine .refused .einval ⟨?_, hthreads⟩ (fun _ _ => Or.inl rfl)
    have hback := setLocked_same s _ false hunlocked
    rw [← hback, ← setLocked_again s _ true false]
    simp only [State.setLocked, State.setQueue, hqueues]
    rfl
  case isFalse =>
  unfold sndLoop at h
  split at h
  case isTrue hpos =>
    split at h
    case isTrue => cases h
    case isFalse =>
      rw [← Option.some.inj h]
      exact .copies m spot a.msgsz ⟨rfl, rfl⟩ hunlocked
        ⟨hpos, not_lt.mp hsize⟩
  case isFalse =>
  split at h
  case isTrue => cases h
  case isFalse =>
    refine (sndFinish_outcome h).congr ?_ rfl
    rw [← setLocked_same s _ false hunlocked, ← setLocked_again s _ true false]
    rfl

/-- A sender that copies goes on with that, or clears its lock and is refused or
    done. -/
theorem sndCopied_outcome {left : Nat} {ok : Bool}
    (h : sndCopied cfg s t a m next left ok mac = some s') :
    (∃ next' left', After s s' s.msqids t (.sndCopy a m next' left')) ∨
      After s s' (s.setLocked (ipcidToIx a.msqid) false).msqids t (.done .efault 0) ∨
      SndOutcome (s.setLocked (ipcidToIx a.msqid) false) t a s' := by
  unfold sndCopied at h
  split at h
  case isTrue =>
    unfold sndLoop at h
    split at h
    case isTrue =>
      split at h
      case isTrue => cases h
      case isFalse =>
        rw [← Option.some.inj h]
        exact Or.inl ⟨_, _, after_setThread s t _⟩
    case isFalse =>
      split at h
      case isTrue => cases h
      case isFalse => exact Or.inr (Or.inr (sndFinish_outcome h))
  case isFalse =>
  rcases Option.map_eq_some_iff.mp h with ⟨s₁, hgive, rfl⟩
  rcases giveUp_after hgive with ⟨hqueues, hthreads⟩
  refine Or.inr (Or.inl ⟨?_, hthreads⟩)
  simp only [State.setLocked, State.setQueue, hqueues]

/-! ## Receivers -/

theorem rcvLoop_after {a : RcvArgs} {len n : Nat} (h : rcvLoop cfg s t a m next len n = some s') :
    ∃ th, After s s' s.msqids t th ∧
      ((∃ msghdr next len msgsz, th = .rcvCopy a msghdr next len msgsz) ∨
        ∃ retval, th = .done .ok retval) := by
  unfold rcvLoop at h
  split at h
  case isTrue =>
    split at h
    case isTrue => cases h
    case isFalse =>
      rw [← Option.some.inj h]
      exact ⟨_, after_setThread s t _, Or.inl ⟨_, _, _, _, rfl⟩⟩
  case isFalse =>
    rcases Option.map_eq_some_iff.mp h with ⟨s₁, hfree, rfl⟩
    rcases msgFreehdr_same hfree with ⟨hq, ht⟩
    exact ⟨_, ⟨hq, by rw [← ht]; rfl⟩, Or.inr ⟨_, rfl⟩⟩

/-- A message that has been unlinked is counted out and handed over. -/
theorem rcvTake_outcome {s₁ : State} {a : RcvArgs} {first last : Option Nat}
    (hqueues : s₁.msqids = update s.msqids (ipcidToIx a.msqid)
      { s.msqids (ipcidToIx a.msqid) with first := first, last := last })
    (hthreads : s₁.threads = s.threads) (h : rcvTake cfg s₁ t a m = some s') :
    RcvOutcome s t a s' := by
  unfold rcvTake at h
  rcases rcvLoop_after h with ⟨th, ⟨hq, ht⟩, hth⟩
  refine .taken first last ((s.msqids (ipcidToIx a.msqid)).cbytes - (s₁.msghdrs m).ts) th
    ⟨?_, ?_⟩ hth
  · rw [hq]
    simp only [countOut, State.setQueue, hqueues, update_self, update_idem]
  · rw [ht, ← hthreads]
    rfl

theorem unlinkMsg_same (s : State) (q m : Nat) (previous : Option Nat) :
    ∃ first last, (unlinkMsg s q m previous).msqids =
      update s.msqids q { s.msqids q with first := first, last := last } ∧
      (unlinkMsg s q m previous).threads = s.threads := by
  unfold unlinkMsg
  cases previous with
  | none | some p =>
    dsimp only
    split
    · exact ⟨_, _, rfl, rfl⟩
    · exact ⟨_, _, rfl, rfl⟩

theorem unlinkFirst_same {q : Nat} (h : unlinkFirst s q m = some s') : ∃ first last, s'.msqids =
      update s.msqids q { s.msqids q with first := first, last := last } ∧
      s'.threads = s.threads := by
  unfold unlinkFirst at h
  dsimp only at h
  split at h
  case isTrue =>
    rw [← Option.some.inj h]
    exact ⟨_, _, rfl, rfl⟩
  case isFalse =>
  split at h
  case isTrue => cases h
  case isFalse =>
    rw [← Option.some.inj h]
    exact ⟨_, _, rfl, rfl⟩

theorem rcvTry_outcome {a : RcvArgs} (h : rcvTry cfg s t a mac = some s') :
    RcvOutcome s t a s' := by
  unfold rcvTry at h
  dsimp only at h
  split at h
  case h_1 => cases h
  case h_2 =>
    split at h
    case isTrue =>
      rw [← Option.some.inj h]
      exact .refused .enomsg (after_setThread s t _)
    case isFalse =>
      rw [← Option.some.inj h]
      exact .waits (after_setThread s t _)
  case h_3 m previous _ =>
  split at h
  case isTrue =>
    rw [← Option.some.inj h]
    exact .refused .e2big (after_setThread s t _)
  case isFalse =>
  split at h
  case isTrue =>
    rw [← Option.some.inj h]
    exact .refused .eacces (after_setThread s t _)
  case isFalse =>
  split at h
  case isTrue =>
    rcases Option.bind_eq_some_iff.mp h with ⟨s₁, hunlink, htake⟩
    rcases unlinkFirst_same hunlink with ⟨first, last, hqueues, hthreads⟩
    exact rcvTake_outcome hqueues hthreads htake
  case isFalse =>
    rcases unlinkMsg_same s (ipcidToIx a.msqid) m previous with
      ⟨first, last, hqueues, hthreads⟩
    exact rcvTake_outcome hqueues hthreads h

theorem rcvCopied_outcome {a : RcvArgs} {len n : Nat} {ok : Bool}
    (h : rcvCopied cfg s t a m next len n ok = some s') : ∃ th, After s s' s.msqids t th ∧
      ((∃ msghdr next len msgsz, th = .rcvCopy a msghdr next len msgsz) ∨
        ∃ error retval, th = .done error retval) := by
  unfold rcvCopied at h
  split at h
  case isTrue =>
    rcases rcvLoop_after h with ⟨th, hafter, hth | ⟨retval, hth⟩⟩
    · exact ⟨th, hafter, Or.inl hth⟩
    · exact ⟨th, hafter, Or.inr ⟨_, retval, hth⟩⟩
  case isFalse => exact ⟨_, giveUp_after h, Or.inr ⟨_, _, rfl⟩⟩

/-! ## The other calls -/

/-- A slot may be handed out again if it is free and not locked. -/
theorem msgget_outcome (cfg : Config) (s : State) (t : Nat) (key : Int)
    (creat excl permit racct : Bool) :
    ∃ error retval, After s (msgget cfg s t key creat excl permit racct) s.msqids t
        (.done error retval) ∨
      ∃ q, (s.msqids q).qbytes = 0 ∧ (s.msqids q).locked = false ∧
        After s (msgget cfg s t key creat excl permit racct) (update s.msqids q
          ⟨key, ((s.msqids q).seq + 1) % 2 ^ 15, false, none, none, 0, 0, cfg.msgmnb⟩) t
          (.done error retval) := by
  unfold msgget
  split
  · split
    · exact ⟨_, _, Or.inl (after_setThread s t _)⟩
    split
    · exact ⟨_, _, Or.inl (after_setThread s t _)⟩
    · exact ⟨_, _, Or.inl (after_setThread s t _)⟩
  split
  · split
    · exact ⟨_, _, Or.inl (after_setThread s t _)⟩
    case h_2 q hfind =>
    split
    · exact ⟨_, _, Or.inl (after_setThread s t _)⟩
    have hfree := List.find?_some hfind
    rw [decide_eq_true_eq] at hfree
    exact ⟨_, _, Or.inr ⟨q, hfree.1, hfree.2, rfl, rfl⟩⟩
  · exact ⟨_, _, Or.inl (after_setThread s t _)⟩

/-- Freeing the messages of a queue changes no other one, and of this one only the
    sums. -/
theorem rmidLoop_same (q n : Nat) : ∀ (s : State) (m : Option Nat), rmidLoop cfg q n s m = some s' →
    ∃ cbytes qnum, s'.msqids = update s.msqids q
      { s.msqids q with cbytes := cbytes, qnum := qnum } ∧ qnum ≤ (s.msqids q).qnum ∧
      s'.threads = s.threads := by
  induction n with
  | zero =>
    intro s m h
    cases m with
    | none =>
      rw [← Option.some.inj h]
      exact ⟨(s.msqids q).cbytes, (s.msqids q).qnum, (update_eq_self q s.msqids).symm,
        Int.le_refl _, rfl⟩
    | some m => cases h
  | succ n ih =>
    intro s m h
    cases m with
    | none =>
      rw [← Option.some.inj h]
      exact ⟨(s.msqids q).cbytes, (s.msqids q).qnum, (update_eq_self q s.msqids).symm,
        Int.le_refl _, rfl⟩
    | some m =>
      rcases Option.bind_eq_some_iff.mp h with ⟨s₁, hfree, hrest⟩
      rcases msgFreehdr_same hfree with ⟨hq, ht⟩
      rcases ih s₁ _ hrest with ⟨cbytes, qnum, hqueues, hle, hthreads⟩
      rw [hq] at hqueues hle
      simp only [countOut, State.setQueue, update_self, update_idem]
        at hqueues hle
      exact ⟨cbytes, qnum, hqueues, Int.le_trans hle (Int.sub_le_self _ (by decide)),
        hthreads.trans ht⟩

/-- `IPC_RMID` leaves the slot free, with no messages counted and its sequence
    number. -/
theorem ipcRmid_outcome {msqid : BitVec 32} {permit : Bool}
    (h : ipcRmid cfg s t msqid permit = some s') :
    ∃ error retval, After s s' s.msqids t (.done error retval) ∨
      Exists cfg s msqid ∧ 0 ≤ (s.msqids (ipcidToIx msqid)).qnum ∧
        ∃ cbytes, After s s' (update s.msqids (ipcidToIx msqid)
          { s.msqids (ipcidToIx msqid) with cbytes := cbytes, qnum := 0, qbytes := 0 }) t
          (.done error retval) := by
  unfold ipcRmid at h
  dsimp only at h
  split at h
  case isTrue =>
    rw [← Option.some.inj h]
    exact ⟨_, _, Or.inl (after_setThread s t _)⟩
  case isFalse hexists =>
  split at h
  case isTrue =>
    rw [← Option.some.inj h]
    exact ⟨_, _, Or.inl (after_setThread s t _)⟩
  case isFalse =>
  split at h
  case h_1 => cases h
  case h_2 s₁ hloop =>
  rcases rmidLoop_same (ipcidToIx msqid) cfg.msgtql s _ hloop with
    ⟨cbytes, qnum, hqueues, hle, hthreads⟩
  split at h
  case isTrue => cases h
  case isFalse hsums =>
  rw [not_or, not_not, not_not, hqueues, update_self] at hsums
  rw [← Option.some.inj h]
  refine ⟨.ok, 0, Or.inr ⟨not_not.mp hexists, Int.le_trans (Int.le_of_eq hsums.2.symm) hle,
    cbytes, ?_, ?_⟩⟩
  · change update s₁.msqids (ipcidToIx msqid) _ = _
    rw [hqueues, update_self, update_idem, hsums.2]
  · change update s₁.threads t _ = _
    rw [hthreads]

theorem ipcSet_outcome (cfg : Config) (s : State) (t : Nat) (msqid : BitVec 32)
    (permit priv : Bool) (n : Nat) :
    ∃ error retval, After s (ipcSet cfg s t msqid permit priv n) s.msqids t
        (.done error retval) ∨
      Exists cfg s msqid ∧ ∃ qbytes, qbytes ≠ 0 ∧ After s (ipcSet cfg s t msqid permit priv n)
        (update s.msqids (ipcidToIx msqid)
          { s.msqids (ipcidToIx msqid) with qbytes := qbytes }) t (.done error retval) := by
  unfold ipcSet
  dsimp only
  split
  · exact ⟨_, _, Or.inl (after_setThread s t _)⟩
  case isFalse hexists =>
  split
  · exact ⟨_, _, Or.inl (after_setThread s t _)⟩
  split
  · exact ⟨_, _, Or.inl (after_setThread s t _)⟩
  split
  · exact ⟨_, _, Or.inl (after_setThread s t _)⟩
  case isFalse hsize =>
    exact ⟨_, _, Or.inr ⟨not_not.mp hexists, _, hsize, rfl, rfl⟩⟩

end FreeBSDKern.Msg
