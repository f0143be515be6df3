import Mathlib

/-!
# Passing Descriptors over Local Sockets

The control messages of `uipc_usrreq.c`. A buffer of control messages from the user
is walked by `unp_internalize`, which turns it into a chain of control mbufs; a
`SCM_RIGHTS` message becomes a mbuf of file pointers, each of which counts in
`unp_rights`, in the `unp_msgcount` of the socket it refers to, if it is a local
one, and holds a reference of the file. `uipc_send` queues the chain on the receive
buffer of the peer. `unp_externalize` takes a control mbuf apart when it is received,
and `unp_dispose` drops what was never received.

The buffer is a list of bytes as the kernel reads them, on a machine of 64 bits with
the low byte first. Allocations may fail, an append may find the receive buffer full
or fail otherwise, and a connect may fail; the answers come with the call. The
control mbufs of all receive buffers are in one list, each with its socket.
References held otherwise, by descriptor tables or by the kernel, are counted in
`others`, which nothing reads. `none` is a reference through a null pointer or beyond
the buffer.

## Main definitions

* `walk`, `convert`: The messages of a buffer, and what one of them becomes.
* `internalize`, `externalize`, `dispose`: In and out of the chain of mbufs.
* `uipcSend`: Sending data with control messages.
* `step`: The operations.
-/

namespace FreeBSDKern.Unp

open Function

inductive Errno where
  | ok | einval | enobufs | e2big | ebadf | eopnotsupp | eisconn | econnrefused | enotconn | epipe
  | emsgsize
  deriving DecidableEq

/-- What `fptounp` and `DFLAG_PASSABLE` say of a file. -/
structure Files where
  unp : Nat → Option Nat
  passable : Nat → Bool

/-- A control mbuf, as `sbcreatecontrol` makes it: file pointers, or another type of
    message. -/
inductive Mbuf where
  | rights (fdep : List Nat)
  | other (type : Nat)
  deriving DecidableEq

inductive SoType where
  | dgram | stream | seqpacket
  deriving DecidableEq

structure Sock where
  type : SoType
  conn : Option Nat
  connected : Bool
  cantsendmore : Bool
  wantcred : Bool
  deriving DecidableEq

structure State where
  /-- `unp_rights`. -/
  rights : Int
  msgcount : Nat → Int
  unpFile : Nat → Option Nat
  /-- `f_count`. -/
  fcount : Nat → Int
  /-- The files that a task will close. -/
  defers : List Nat
  socks : Nat → Sock
  /-- The control mbufs on receive buffers. -/
  queued : List (Nat × Mbuf)
  others : Nat → Int

def init : State where
  rights := 0
  msgcount := fun _ => 0
  unpFile := fun _ => none
  fcount := fun _ => 0
  defers := []
  socks := fun _ => ⟨.stream, none, false, false, false⟩
  queued := []
  others := fun _ => 0

def solSocket : Nat := 0xffff

def scmRights : Nat := 1

def scmTimestamp : Nat := 2

def scmCreds : Nat := 3

def scmBintime : Nat := 4

/-- `sizeof(struct cmsghdr)`. -/
def cmsghdrSize : Nat := 12

def align (n : Nat) : Nat := (n + 7) / 8 * 8

def cmsgSpace (l : Nat) : Nat := align cmsghdrSize + align l

def mclbytes : Nat := 2048

/-- The word at an offset of the buffer. -/
def word (b : List (BitVec 8)) (off : Nat) : Nat :=
  (b.getD off 0#8).toNat + (b.getD (off + 1) 0#8).toNat * 2 ^ 8 +
    (b.getD (off + 2) 0#8).toNat * 2 ^ 16 + (b.getD (off + 3) 0#8).toNat * 2 ^ 24

/-- A control message: its type, the length of its data, and the bytes of the buffer
    from its data on. -/
structure Cmsg where
  type : Nat
  datalen : Nat
  data : List (BitVec 8)

/-- The messages that the loops over a control buffer meet. The last one is `none` if
    its header is not acceptable. The length of the data is computed in 32 bits. -/
def walk : Nat → List (BitVec 8) → List (Option Cmsg)
  | 0, _ => []
  | fuel + 1, b =>
    let cmsgLen := word b 0
    if cmsghdrSize > b.length ∨ word b 4 ≠ solSocket ∨ cmsgLen > b.length ∨
        cmsgLen < cmsghdrSize then [none]
    else
      let datalen := (cmsgLen + 2 ^ 32 - align cmsghdrSize) % 2 ^ 32
      some ⟨word b 8, datalen, b.drop (align cmsghdrSize)⟩ ::
        if cmsgSpace datalen < b.length then walk fuel (b.drop (cmsgSpace datalen)) else []

/-- The messages of a whole buffer. -/
def messages (b : List (BitVec 8)) : List (Option Cmsg) := walk (b.length + 1) b

inductive Result (α : Type) where
  | ok (a : α)
  | error (e : Errno)
  | fault

/-- A descriptor number of 32 bits, with its sign. -/
def readInt (data : List (BitVec 8)) : Option Int :=
  if data.length < 4 then none else some (BitVec.ofNat 32 (word data 0)).toInt

/-- The files of `n` descriptors. -/
def getFiles (files : Files) (fget : Int → Option Nat) : Nat → List (BitVec 8) → Result (List Nat)
  | 0, _ => .ok []
  | n + 1, data =>
    match readInt data with
    | none => .fault
    | some fd =>
      match fget fd with
      | none => .error .ebadf
      | some fp =>
        if files.passable fp = false then .error .eopnotsupp
        else
          match getFiles files fget n (data.drop 4) with
          | .ok fps => .ok (fp :: fps)
          | .error e => .error e
          | .fault => .fault

/-- The checks on one message, and the mbuf it is to become. A `SCM_RIGHTS` message
    without descriptors becomes none. -/
def convert (files : Files) (fget : Int → Option Nat) : Option Cmsg → Result (Option Mbuf)
  | none => .error .einval
  | some c =>
    if c.type = scmCreds ∨ c.type = scmTimestamp ∨ c.type = scmBintime then
      .ok (some (.other c.type))
    else if c.type = scmRights then
      if c.datalen / 4 = 0 then .ok none
      else
        match getFiles files fget (c.datalen / 4) c.data with
        | .ok fps => .ok (some (.rights fps))
        | .error e => .error e
        | .fault => .fault
    else .error .einval

/-- The file pointers of a chain of control mbufs. -/
def fileptrs (chain : List Mbuf) : List Nat :=
  chain.flatMap (fun m => match m with
    | .rights fdep => fdep
    | .other _ => [])

def internalizeFp (files : Files) (s : State) (fp : Nat) : State :=
  let s := match files.unp fp with
    | some u =>
      { s with
        unpFile := update s.unpFile u (some fp)
        msgcount := update s.msgcount u (s.msgcount u + 1) }
    | none => s
  { s with fcount := update s.fcount fp (s.fcount fp + 1), rights := s.rights + 1 }

def externalizeFp (files : Files) (s : State) (fp : Nat) : Bool × State :=
  match files.unp fp with
  | some u =>
    (true, { s with
      msgcount := update s.msgcount u (s.msgcount u - 1), rights := s.rights - 1 })
  | none => (false, { s with rights := s.rights - 1 })

/-- `closef`. -/
def closef (s : State) (fp : Nat) : State :=
  { s with fcount := update s.fcount fp (s.fcount fp - 1) }

def discard (files : Files) (s : State) (fp : Nat) : State :=
  if (externalizeFp files s fp).1 then
    { (externalizeFp files s fp).2 with defers := fp :: (externalizeFp files s fp).2.defers }
  else closef (externalizeFp files s fp).2 fp

def freerights (files : Files) (s : State) (fdep : List Nat) : State :=
  fdep.foldl (discard files) s

/-- `unp_scan` with `unp_freerights`, over a chain. -/
def dispose (files : Files) (s : State) (chain : List Mbuf) : State :=
  freerights files s (fileptrs chain)

/-- `sbcreatecontrol` for a message of a chain. -/
def tooLarge : Mbuf → Bool
  | .rights fps => cmsgSpace (8 * fps.length) > mclbytes
  | .other _ => false

/-- The loop of `unp_internalize`: the error, and the chain that `*controlp` is left
    with. `dangling` says that the place for the next mbuf is in the mbuf that a
    message did not become, so that it lies at address zero. `alloc` answers for the
    message with so many behind it. -/
def internalizeLoop (files : Files) (fget : Int → Option Nat) (alloc : Nat → Bool) :
    List (Option Cmsg) → Bool → List Mbuf → State → Option (Errno × List Mbuf × State)
  | [], _, chain, s => some (.ok, chain, s)
  | c :: cs, dangling, chain, s =>
    match convert files fget c with
    | .fault => none
    | .error e => some (e, chain, s)
    | .ok none => if dangling then none else internalizeLoop files fget alloc cs true chain s
    | .ok (some m) =>
      if dangling then none
      else if alloc cs.length = false ∨ tooLarge m then
        some (match m with | .rights _ => .e2big | .other _ => .enobufs, chain, s)
      else
        internalizeLoop files fget alloc cs false (chain ++ [m])
          ((fileptrs [m]).foldl (internalizeFp files) s)

def internalize (files : Files) (fget : Int → Option Nat) (alloc : Nat → Bool)
    (b : List (BitVec 8)) (s : State) : Option (Errno × List Mbuf × State) :=
  internalizeLoop files fget alloc (messages b) false [] s

/-- `unp_addsockcred`: credentials in front, in place of those the sender gave. -/
def addsockcred (alloc : Bool) (control : List Mbuf) : List Mbuf :=
  if alloc then .other scmCreds :: control.filter (fun m => m ≠ .other scmCreds) else control

/-- The arguments of `uipc_send`, and the answers it gets. -/
structure SendArgs where
  so : Nat
  oob : Bool
  eof : Bool
  /-- `nam`: the socket that `unp_connect` connects to, or its failure. -/
  nam : Option (Option Nat)
  control : Option (List (BitVec 8))
  /-- The descriptor table of the sender. -/
  fget : Int → Option Nat
  alloc : Nat → Bool
  credAlloc : Bool
  /-- The receive buffer takes the message. -/
  append : Bool

def State.setSock (s : State) (so : Nat) (v : Sock) : State :=
  { s with socks := update s.socks so v }

def enqueue (s : State) (so : Nat) (chain : List Mbuf) : State :=
  { s with queued := s.queued ++ chain.map (fun m => (so, m)) }

/-- `unp_connect`, when a name is given. -/
def connect (s : State) (so : Nat) (nam : Option (Option Nat)) : Errno × State :=
  match nam with
  | none => (.enotconn, s)
  | some none => (.econnrefused, s)
  | some (some peer) =>
    (.ok, s.setSock so { s.socks so with conn := some peer, connected := true })

/-- The connection that a send needs first, if it needs one. -/
def connectFor (s : State) (a : SendArgs) (need : Bool) : Errno × State :=
  if need then connect s a.so a.nam else (.ok, s)

/-- Appending to the receive buffer of the peer `so2`, for `SOCK_DGRAM`. -/
def dgramAppend (s : State) (a : SendArgs) (control : List Mbuf) (so2 : Nat) :
    Errno × List Mbuf × State :=
  let control := if (s.socks so2).wantcred then addsockcred a.credAlloc control else control
  let r : Errno × List Mbuf × State :=
    if a.append then (.ok, [], enqueue s so2 control) else (.enobufs, control, s)
  (r.1, r.2.1, if a.nam.isSome then
      r.2.2.setSock a.so { r.2.2.socks a.so with conn := none, connected := false }
    else r.2.2)

/-- The part of `uipc_send` for `SOCK_DGRAM`: the error, and what is left of the
    control chain. -/
def sendDgram (s : State) (a : SendArgs) (control : List Mbuf) : Errno × List Mbuf × State :=
  if a.nam.isSome ∧ (s.socks a.so).conn ≠ none then (.eisconn, control, s)
  else
    let r := connectFor s a a.nam.isSome
    if r.1 ≠ .ok then (r.1, control, r.2)
    else
      match (r.2.socks a.so).conn with
      | none => (.enotconn, control, r.2)
      | some so2 => dgramAppend r.2 a control so2

/-- Appending to the receive buffer of the peer `so2`, for `SOCK_STREAM` and
    `SOCK_SEQPACKET`. No error is set if that fails. -/
def streamAppend (s : State) (a : SendArgs) (control : List Mbuf) (so2 : Nat) :
    Errno × List Mbuf × State :=
  let want := (s.socks so2).wantcred
  let s := if want then s.setSock so2 { s.socks so2 with wantcred := false } else s
  let control := if want then addsockcred a.credAlloc control else control
  if a.append then (.ok, [], enqueue s so2 control) else (.ok, control, s)

/-- The part for `SOCK_STREAM` and `SOCK_SEQPACKET`. -/
def sendStream (s : State) (a : SendArgs) (control : List Mbuf) : Errno × List Mbuf × State :=
  let r := connectFor s a (!(s.socks a.so).connected)
  if r.1 ≠ .ok then (r.1, control, r.2)
  else if (r.2.socks a.so).cantsendmore then (.epipe, control, r.2)
  else
    match (r.2.socks a.so).conn with
    | none => (.enotconn, control, r.2)
    | some so2 => streamAppend r.2 a control so2

/-- The part that is particular to the type of the socket. -/
def sendType (s : State) (a : SendArgs) (control : List Mbuf) : Errno × List Mbuf × State :=
  match (s.socks a.so).type with
  | .dgram => sendDgram s a control
  | .stream => sendStream s a control
  | .seqpacket => sendStream s a control

/-- From the switch on the type to the label `release`. -/
def sendRest (files : Files) (s : State) (a : SendArgs) (control : List Mbuf) : Errno × State :=
  let r := sendType s a control
  let s := if a.eof then r.2.2.setSock a.so { r.2.2.socks a.so with cantsendmore := true }
    else r.2.2
  (r.1, if r.2.1 ≠ [] ∧ r.1 ≠ .ok then dispose files s r.2.1 else s)

def uipcSend (files : Files) (s : State) (a : SendArgs) : Option (Errno × State) :=
  if a.oob then some (.eopnotsupp, s)
  else
    match a.control with
    | none => some (sendRest files s a [])
    | some b =>
      (internalize files a.fget a.alloc b s).bind (fun r =>
        if r.1 ≠ .ok then some (r.1, r.2.2) else some (sendRest files r.2.2 a r.2.1))

/-- One round of the loop of `unp_externalize` over the descriptors. -/
def install (files : Files) (s : State) (fp : Nat) : State :=
  { (externalizeFp files s fp).2 with
    others := update s.others fp (s.others fp + 1) }

/-- `unp_externalize` of one control mbuf; `wanted` says that the caller asked for
    control messages, `fdsOk` that the descriptor table has room. -/
def externalize (files : Files) (s : State) (m : Mbuf) (wanted alloc fdsOk : Bool) :
    Errno × State :=
  match m with
  | .rights fps =>
    if wanted = false then (.ok, freerights files s fps)
    else if alloc = false then (.e2big, freerights files s fps)
    else if fdsOk = false then (.emsgsize, freerights files s fps)
    else (.ok, fps.foldl (install files) s)
  | .other _ => if wanted ∧ alloc = false then (.enobufs, s) else (.ok, s)

inductive Op where
  | send (args : SendArgs)
  /-- The next control mbuf of a receive buffer is received. -/
  | receive (so : Nat) (wanted alloc fdsOk : Bool)
  /-- The receive buffer of a socket is thrown away. -/
  | disposeSo (so : Nat)
  /-- The task closes the deferred files. -/
  | processDefers
  /-- Connecting, shutting down and the like. -/
  | setSock (so : Nat) (v : Sock)
  /-- References taken and dropped elsewhere. -/
  | hold (fp : Nat) (n : Int)

def step (files : Files) (s : State) : Op → Option State
  | .send a => (uipcSend files s a).map (fun r => r.2)
  | .receive so wanted alloc fdsOk =>
    match s.queued.find? (fun e => e.1 = so) with
    | none => some s
    | some e =>
      some (externalize files { s with queued := s.queued.erase e } e.2 wanted alloc fdsOk).2
  | .disposeSo so =>
    some (dispose files { s with queued := s.queued.filter (fun e => e.1 ≠ so) }
      ((s.queued.filter (fun e => e.1 = so)).map (fun e => e.2)))
  | .processDefers => some { s.defers.foldl closef s with defers := [] }
  | .setSock so v => some (s.setSock so v)
  | .hold fp n =>
    some { s with
      fcount := update s.fcount fp (s.fcount fp + n)
      others := update s.others fp (s.others fp + n) }

end FreeBSDKern.Unp
