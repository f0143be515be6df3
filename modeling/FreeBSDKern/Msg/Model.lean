import Mathlib

/-!
# System V Message Queues

The message queues of `sysv_msg.c`. A message has a header and a chain of segments;
headers and segments come from two free lists, a queue links its messages by their
headers, and one mutex protects everything. It is dropped in three places: a sender
or a receiver goes to sleep, and each segment is copied from or to the user without
it. A step is what a thread does between two such places, so a run is any
interleaving, and a thread that is asleep may be woken at any time.

References to segments are numbers, -1 for none, and headers are numbers too. The
answers of the permission, resource and mandatory access checks come with the step,
and so does whether a copy fails. `none` is a panic.

## Main definitions

* `Config`: The parameters of `struct msginfo`.
* `State`, `Thread`: The pool and the queues, and where each thread stands.
* `msgFreehdr`, `allocSegments`: To and from the free lists.
* `msgget`, `ipcRmid`, `ipcSet`, `msgsnd`, `msgrcv`: The calls.
* `step`: One step of one thread.
-/

namespace FreeBSDKern.Msg

open Function

/-- `struct msginfo`, as far as `msginit` accepts it. -/
structure Config where
  msgmni : Nat
  msgmnb : Nat
  msgtql : Nat
  msgssz : Nat
  msgseg : Nat
  ssz : ∃ k, 3 ≤ k ∧ k ≤ 10 ∧ msgssz = 2 ^ k
  seg : 0 < msgseg ∧ msgseg ≤ 32767
  tql : 0 < msgtql

/-- The parameters as they are compiled in. -/
def msginfo : Config where
  msgmni := 40
  msgmnb := 2048
  msgtql := 40
  msgssz := 8
  msgseg := 2048
  ssz := ⟨3, by decide, by decide, rfl⟩
  seg := by decide
  tql := by decide

inductive Errno where
  | ok | einval | eacces | eagain | eintr | eidrm | efault | enomsg | e2big | enospc | eexist
  | enoent
  deriving DecidableEq

/-- `struct msg`. The size is an unsigned short. -/
structure Hdr where
  next : Option Nat
  type : BitVec 64
  ts : Nat
  spot : Int
  deriving DecidableEq

/-- `struct msqid_ds`; `locked` is the bit `MSG_LOCKED` of its mode. -/
structure Queue where
  key : Int
  seq : Nat
  locked : Bool
  first : Option Nat
  last : Option Nat
  cbytes : Int
  qnum : Int
  qbytes : Nat
  deriving DecidableEq

structure SndArgs where
  msqid : BitVec 32
  msgsz : Nat
  nowait : Bool
  mtype : BitVec 64

structure RcvArgs where
  msqid : BitVec 32
  msgsz : Nat
  msgtyp : BitVec 64
  nowait : Bool
  noerror : Bool

/-- Where a thread stands when it does not hold the mutex. -/
inductive Thread where
  | done (error : Errno) (retval : Nat)
  | sndSleep (args : SndArgs) (weOwnIt : Bool)
  | sndCopy (args : SndArgs) (msghdr : Nat) (next : Int) (left : Nat)
  | rcvSleep (args : RcvArgs)
  | rcvCopy (args : RcvArgs) (msghdr : Nat) (next : Int) (len msgsz : Nat)

/-- The segments: `msgmaps` and its free list. -/
structure Segments where
  msgmaps : Nat → Int
  nfreeMsgmaps : Int
  freeMsgmaps : Int

structure State where
  segs : Segments
  msghdrs : Nat → Hdr
  freeMsghdrs : Option Nat
  msqids : Nat → Queue
  threads : Nat → Thread

def msginit (cfg : Config) : State where
  segs :=
    { msgmaps := fun i => if i + 1 < cfg.msgseg then (i + 1 : Int) else -1
      nfreeMsgmaps := cfg.msgseg
      freeMsgmaps := 0 }
  msghdrs := fun i => ⟨if i + 1 < cfg.msgtql then some (i + 1) else none, 0#64, 0, -1⟩
  freeMsghdrs := some 0
  msqids := fun _ => ⟨0, 0, false, none, none, 0, 0, 0⟩
  threads := fun _ => .done .ok 0

def ipcidToIx (msqid : BitVec 32) : Nat := msqid.toNat % 2 ^ 16

def ipcidToSeq (msqid : BitVec 32) : Nat := msqid.toNat / 2 ^ 16

def State.setThread (s : State) (t : Nat) (th : Thread) : State :=
  { s with threads := update s.threads t th }

def State.setQueue (s : State) (q : Nat) (v : Queue) : State :=
  { s with msqids := update s.msqids q v }

def State.setHdr (s : State) (h : Nat) (v : Hdr) : State :=
  { s with msghdrs := update s.msghdrs h v }

def State.setLocked (s : State) (q : Nat) (b : Bool) : State :=
  s.setQueue q { s.msqids q with locked := b }

def segsNeeded (cfg : Config) (msgsz : Nat) : Nat := (msgsz + cfg.msgssz - 1) / cfg.msgssz

/-- The loop of `msg_freehdr`, over a message with `ts` bytes left. -/
def freeSegments (cfg : Config) : Nat → Segments → Nat → Int → Option (Segments × Int)
  | 0, g, ts, spot => if ts = 0 then some (g, spot) else none
  | fuel + 1, g, ts, spot =>
    if ts = 0 then some (g, spot)
    else if spot < 0 ∨ spot ≥ cfg.msgseg then none
    else
      freeSegments cfg fuel
        { msgmaps := update g.msgmaps spot.toNat g.freeMsgmaps
          nfreeMsgmaps := g.nfreeMsgmaps + 1
          freeMsgmaps := spot }
        (if ts ≥ cfg.msgssz then ts - cfg.msgssz else 0) (g.msgmaps spot.toNat)

def msgFreehdr (cfg : Config) (s : State) (msghdr : Nat) : Option State :=
  match freeSegments cfg (s.msghdrs msghdr).ts s.segs (s.msghdrs msghdr).ts
      (s.msghdrs msghdr).spot with
  | none => none
  | some (g, spot) =>
    if spot ≠ -1 then none
    else
      some { s.setHdr msghdr
          { s.msghdrs msghdr with ts := 0, spot := spot, next := s.freeMsghdrs } with
        segs := g
        freeMsghdrs := some msghdr }

/-- The loop of `msgsnd` that allocates the segments of a message. -/
def allocSegments (cfg : Config) : Nat → Segments → Int → Option (Segments × Int)
  | 0, g, spot => some (g, spot)
  | n + 1, g, spot =>
    if g.nfreeMsgmaps ≤ 0 ∨ g.freeMsgmaps ≤ -1 ∨ g.freeMsgmaps ≥ cfg.msgseg then none
    else
      allocSegments cfg n
        { msgmaps := update g.msgmaps g.freeMsgmaps.toNat spot
          nfreeMsgmaps := g.nfreeMsgmaps - 1
          freeMsgmaps := g.msgmaps g.freeMsgmaps.toNat } g.freeMsgmaps

/-- `msg_freehdr`, and the call returns. -/
def giveUp (cfg : Config) (s : State) (t msghdr : Nat) (error : Errno) : Option State :=
  (msgFreehdr cfg s msghdr).map (fun s => s.setThread t (.done error 0))

def msgget (cfg : Config) (s : State) (t : Nat) (key : Int) (creat excl permit racct : Bool) :
    State :=
  match (List.range cfg.msgmni).find? (fun q =>
      key ≠ 0 ∧ (s.msqids q).qbytes ≠ 0 ∧ (s.msqids q).key = key) with
  | some q =>
    if creat ∧ excl then s.setThread t (.done .eexist 0)
    else if permit = false then s.setThread t (.done .eacces 0)
    else s.setThread t (.done .ok (q + (s.msqids q).seq * 2 ^ 16))
  | none =>
    if key = 0 ∨ creat then
      match (List.range cfg.msgmni).find? (fun q =>
          (s.msqids q).qbytes = 0 ∧ (s.msqids q).locked = false) with
      | none => s.setThread t (.done .enospc 0)
      | some q =>
        if racct = false then s.setThread t (.done .enospc 0)
        else
          let seq := ((s.msqids q).seq + 1) % 2 ^ 15
          (s.setQueue q ⟨key, seq, false, none, none, 0, 0, cfg.msgmnb⟩).setThread t
            (.done .ok (q + seq * 2 ^ 16))
    else s.setThread t (.done .enoent 0)

/-- The queue exists and has the sequence number of the identifier. -/
def Exists (cfg : Config) (s : State) (msqid : BitVec 32) : Prop :=
  ipcidToIx msqid < cfg.msgmni ∧ (s.msqids (ipcidToIx msqid)).qbytes ≠ 0 ∧
    (s.msqids (ipcidToIx msqid)).seq = ipcidToSeq msqid

instance (cfg : Config) (s : State) (msqid : BitVec 32) : Decidable (Exists cfg s msqid) :=
  inferInstanceAs (Decidable (_ ∧ _ ∧ _))

/-- A message no longer counts for its queue. -/
def countOut (s : State) (q msghdr : Nat) : State :=
  s.setQueue q
    { s.msqids q with
      cbytes := (s.msqids q).cbytes - (s.msghdrs msghdr).ts
      qnum := (s.msqids q).qnum - 1 }

/-- The loop of `IPC_RMID` that frees the messages of a queue. -/
def rmidLoop (cfg : Config) (q : Nat) : Nat → State → Option Nat → Option State
  | _, s, none => some s
  | 0, _, some _ => none
  | n + 1, s, some msghdr =>
    (msgFreehdr cfg (countOut s q msghdr) msghdr).bind
      (fun s' => rmidLoop cfg q n s' (s.msghdrs msghdr).next)

def ipcRmid (cfg : Config) (s : State) (t : Nat) (msqid : BitVec 32) (permit : Bool) :
    Option State :=
  let q := ipcidToIx msqid
  if ¬ Exists cfg s msqid then some (s.setThread t (.done .einval 0))
  else if permit = false then some (s.setThread t (.done .eacces 0))
  else
    match rmidLoop cfg q cfg.msgtql s (s.msqids q).first with
    | none => none
    | some s =>
      if (s.msqids q).cbytes ≠ 0 ∨ (s.msqids q).qnum ≠ 0 then none
      else some ((s.setQueue q { s.msqids q with qbytes := 0 }).setThread t (.done .ok 0))

def ipcSet (cfg : Config) (s : State) (t : Nat) (msqid : BitVec 32) (permit priv : Bool)
    (qbytes : Nat) : State :=
  let q := ipcidToIx msqid
  if ¬ Exists cfg s msqid then s.setThread t (.done .einval 0)
  else if permit = false then s.setThread t (.done .eacces 0)
  else if qbytes > (s.msqids q).qbytes ∧ priv = false then s.setThread t (.done .eacces 0)
  else if min qbytes cfg.msgmnb = 0 then s.setThread t (.done .einval 0)
  else
    (s.setQueue q { s.msqids q with qbytes := min qbytes cfg.msgmnb }).setThread t (.done .ok 0)

/-- The message is linked into its queue. -/
def enqueue (s : State) (q msghdr : Nat) : State :=
  let v := s.msqids q
  let s := match v.first, v.last with
    | some _, some l => s.setHdr l { s.msghdrs l with next := some msghdr }
    | _, _ => s
  let s := s.setHdr msghdr { s.msghdrs msghdr with next := none }
  s.setQueue q
    { v with
      first := if v.first = none then some msghdr else v.first
      last := some msghdr
      cbytes := v.cbytes + (s.msghdrs msghdr).ts
      qnum := v.qnum + 1 }

/-- The last part of `msgsnd`, with the whole message copied in. -/
def sndFinish (cfg : Config) (s : State) (t : Nat) (a : SndArgs) (msghdr : Nat) (mac : Bool) :
    Option State :=
  let q := ipcidToIx a.msqid
  let s := s.setLocked q false
  if (s.msqids q).qbytes = 0 then giveUp cfg s t msghdr .eidrm
  else if mac = false then giveUp cfg s t msghdr .eacces
  else some ((enqueue s q msghdr).setThread t (.done .ok 0))

/-- The head of the loop that copies the message in, with `left` bytes to go. -/
def sndLoop (cfg : Config) (s : State) (t : Nat) (a : SndArgs) (msghdr : Nat) (next : Int)
    (left : Nat) (mac : Bool) : Option State :=
  if left > 0 then
    if next ≤ -1 ∨ next ≥ cfg.msgseg then none
    else some (s.setThread t (.sndCopy a msghdr next left))
  else if next ≠ -1 then none
  else sndFinish cfg s t a msghdr mac

/-- A round of the loop that waits for resources, and what follows it when there
    are enough. -/
def sndTry (cfg : Config) (s : State) (t : Nat) (a : SndArgs) (mac : Bool) : Option State :=
  let q := ipcidToIx a.msqid
  let v := s.msqids q
  if a.msgsz > v.qbytes then some (s.setThread t (.done .einval 0))
  else if v.locked ∨ a.msgsz + v.cbytes > v.qbytes ∨
      segsNeeded cfg a.msgsz > s.segs.nfreeMsgmaps ∨ s.freeMsghdrs = none then
    if a.nowait then some (s.setThread t (.done .eagain 0))
    else some ((s.setLocked q true).setThread t (.sndSleep a (!v.locked)))
  else
    match s.freeMsghdrs with
    | none => none
    | some msghdr =>
      let s := s.setLocked q true
      match allocSegments cfg (segsNeeded cfg a.msgsz) s.segs (-1) with
      | none => none
      | some (g, spot) =>
        let s :=
          { s.setHdr msghdr
              { s.msghdrs msghdr with
                spot := spot, ts := a.msgsz % 2 ^ 16, type := a.mtype } with
            segs := g
            freeMsghdrs := (s.msghdrs msghdr).next }
        if a.mtype.slt 1#64 then (giveUp cfg s t msghdr .einval).map (·.setLocked q false)
        else sndLoop cfg s t a msghdr spot a.msgsz mac

def msgsnd (cfg : Config) (s : State) (t : Nat) (a : SndArgs) (permit racct mac : Bool) :
    Option State :=
  if ¬ Exists cfg s a.msqid then some (s.setThread t (.done .einval 0))
  else if permit = false then some (s.setThread t (.done .eacces 0))
  else if racct = false then some (s.setThread t (.done .eagain 0))
  else sndTry cfg s t a mac

/-- How a sleep ends. -/
inductive Wake where
  | woken | timedOut | interrupted

/-- A sender wakes up. -/
def sndWake (cfg : Config) (s : State) (t : Nat) (a : SndArgs) (weOwnIt : Bool) (error : Wake)
    (mac : Bool) : Option State :=
  let q := ipcidToIx a.msqid
  let s := if weOwnIt then s.setLocked q false else s
  match error with
  | .timedOut => sndTry cfg s t a mac
  | .interrupted => some (s.setThread t (.done .eintr 0))
  | .woken =>
    if (s.msqids q).qbytes = 0 then some (s.setThread t (.done .eidrm 0))
    else sndTry cfg s t a mac

/-- A segment has been copied in, or not. -/
def sndCopied (cfg : Config) (s : State) (t : Nat) (a : SndArgs) (msghdr : Nat) (next : Int)
    (left : Nat) (copied mac : Bool) : Option State :=
  if copied then
    sndLoop cfg s t a msghdr (s.segs.msgmaps next.toNat) (left - min cfg.msgssz left) mac
  else (giveUp cfg s t msghdr .efault).map (·.setLocked (ipcidToIx a.msqid) false)

/-- A message is of the type asked for, or small enough. -/
def typeMatches (msgtyp : BitVec 64) (m : Hdr) : Bool := msgtyp = m.type || m.type.sle (-msgtyp)

/-- The search for a message by its type, along at most `n` links. The answer is
    the message and the one before it. -/
def findMsg (msghdrs : Nat → Hdr) (msgtyp : BitVec 64) :
    Nat → Option Nat → Option Nat → Option (Option (Nat × Option Nat))
  | _, _, none => some none
  | 0, _, some _ => none
  | n + 1, previous, some msghdr =>
    if typeMatches msgtyp (msghdrs msghdr) then some (some (msghdr, previous))
    else findMsg msghdrs msgtyp n (some msghdr) (msghdrs msghdr).next

/-- The head of the loop that copies the message out. -/
def rcvLoop (cfg : Config) (s : State) (t : Nat) (a : RcvArgs) (msghdr : Nat) (next : Int)
    (len msgsz : Nat) : Option State :=
  if len < msgsz then
    if next ≤ -1 ∨ next ≥ cfg.msgseg then none
    else some (s.setThread t (.rcvCopy a msghdr next len msgsz))
  else (msgFreehdr cfg s msghdr).map (fun s => s.setThread t (.done .ok msgsz))

/-- What follows when a message has been taken off its queue. -/
def rcvTake (cfg : Config) (s : State) (t : Nat) (a : RcvArgs) (msghdr : Nat) : Option State :=
  rcvLoop cfg (countOut s (ipcidToIx a.msqid) msghdr) t a msghdr (s.msghdrs msghdr).spot 0
    (min a.msgsz (s.msghdrs msghdr).ts)

/-- The first message is taken off its queue. -/
def unlinkFirst (s : State) (q msghdr : Nat) : Option State :=
  let v := s.msqids q
  if v.first = v.last then some (s.setQueue q { v with first := none, last := none })
  else if (s.msghdrs msghdr).next = none then none
  else some (s.setQueue q { v with first := (s.msghdrs msghdr).next })

/-- A message with the given one before it is taken off its queue. -/
def unlinkMsg (s : State) (q msghdr : Nat) (previous : Option Nat) : State :=
  let next := (s.msghdrs msghdr).next
  match previous with
  | none =>
    let v := { s.msqids q with first := next }
    s.setQueue q (if v.last = some msghdr then { v with first := none, last := none } else v)
  | some p =>
    let v := s.msqids q
    (s.setHdr p { s.msghdrs p with next := next }).setQueue q
      (if v.last = some msghdr then { v with last := some p } else v)

/-- A round of the loop of `msgrcv`. -/
def rcvTry (cfg : Config) (s : State) (t : Nat) (a : RcvArgs) (mac : Bool) : Option State :=
  let q := ipcidToIx a.msqid
  let found :=
    if a.msgtyp = 0#64 then some ((s.msqids q).first.map (·, none))
    else findMsg s.msghdrs a.msgtyp cfg.msgtql none (s.msqids q).first
  match found with
  | none => none
  | some none =>
    if a.nowait then some (s.setThread t (.done .enomsg 0))
    else some (s.setThread t (.rcvSleep a))
  | some (some (msghdr, previous)) =>
    if a.msgsz < (s.msghdrs msghdr).ts ∧ a.noerror = false then
      some (s.setThread t (.done .e2big 0))
    else if mac = false then some (s.setThread t (.done .eacces 0))
    else if a.msgtyp = 0#64 then
      (unlinkFirst s q msghdr).bind (fun s => rcvTake cfg s t a msghdr)
    else rcvTake cfg (unlinkMsg s q msghdr previous) t a msghdr

def msgrcv (cfg : Config) (s : State) (t : Nat) (a : RcvArgs) (permit mac : Bool) : Option State :=
  if ¬ Exists cfg s a.msqid then some (s.setThread t (.done .einval 0))
  else if permit = false then some (s.setThread t (.done .eacces 0))
  else rcvTry cfg s t a mac

/-- A receiver wakes up. -/
def rcvWake (cfg : Config) (s : State) (t : Nat) (a : RcvArgs) (interrupted mac : Bool) :
    Option State :=
  let v := s.msqids (ipcidToIx a.msqid)
  if interrupted then some (s.setThread t (.done .eintr 0))
  else if v.qbytes = 0 ∨ v.seq ≠ ipcidToSeq a.msqid then some (s.setThread t (.done .eidrm 0))
  else rcvTry cfg s t a mac

/-- A segment has been copied out, or not. -/
def rcvCopied (cfg : Config) (s : State) (t : Nat) (a : RcvArgs) (msghdr : Nat) (next : Int)
    (len msgsz : Nat) (copied : Bool) : Option State :=
  if copied then
    rcvLoop cfg s t a msghdr (s.segs.msgmaps next.toNat) (len + cfg.msgssz) msgsz
  else giveUp cfg s t msghdr .efault

/-- What a thread does next: a new call when its last one is done, or how it goes
    on in the one it is in. -/
inductive Op where
  | msgget (key : Int) (creat excl permit racct : Bool)
  | ipcRmid (msqid : BitVec 32) (permit : Bool)
  | ipcSet (msqid : BitVec 32) (permit priv : Bool) (qbytes : Nat)
  | msgsnd (args : SndArgs) (permit racct mac : Bool)
  | msgrcv (args : RcvArgs) (permit mac : Bool)
  | wake (error : Wake) (mac : Bool)
  | copied (ok mac : Bool)

/-- One step of thread `t`. What it cannot do where it stands changes nothing. -/
def step (cfg : Config) (s : State) (op : Nat × Op) : Option State :=
  let t := op.1
  match s.threads t, op.2 with
  | .done _ _, .msgget key creat excl permit racct =>
    some (msgget cfg s t key creat excl permit racct)
  | .done _ _, .ipcRmid msqid permit => ipcRmid cfg s t msqid permit
  | .done _ _, .ipcSet msqid permit priv qbytes => some (ipcSet cfg s t msqid permit priv qbytes)
  | .done _ _, .msgsnd a permit racct mac => msgsnd cfg s t a permit racct mac
  | .done _ _, .msgrcv a permit mac => msgrcv cfg s t a permit mac
  | .sndSleep a weOwnIt, .wake error mac => sndWake cfg s t a weOwnIt error mac
  | .sndCopy a msghdr next left, .copied ok mac => sndCopied cfg s t a msghdr next left ok mac
  | .rcvSleep a, .wake error mac =>
    rcvWake cfg s t a (match error with | .interrupted => true | _ => false) mac
  | .rcvCopy a msghdr next len msgsz, .copied ok _ =>
    rcvCopied cfg s t a msghdr next len msgsz ok
  | _, _ => some s

end FreeBSDKern.Msg
