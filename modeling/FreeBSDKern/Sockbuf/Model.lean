import Mathlib

/-!
# Socket Buffers

The queue of `uipc_sockbuf.c`. A socket buffer is a list of records, linked by
`m_nextpkt` from `sb_mb` on, and a record is a list of mbufs, linked by `m_next`.
`sb_lastrecord` and `sb_mbtail` point to the last record and to the last mbuf, and
six counters of 32 bits describe what is queued.

A mbuf has its data, the room behind it, and what decides whether that room may be
written. Mbufs are numbered in the order in which they are handed over. A chain that
is handed over is a list of numbered mbufs whose `m_nextpkt` is clear; the loops that
take it apart are loops over that list, and `m_next` is set when a mbuf goes onto the
queue. All data is ready, so `sb_fnrdy` is null and no mbuf is marked `M_NOTREADY` or
`M_BLOCKED`, and as `sbsndptr` is not called neither are `sb_sndptr` and
`sb_sndptroff` set. `none` is a failed assertion, a panic or a loop without end.

## Main definitions

* `Mbuf.weight`: What a mbuf counts in each counter.
* `sbcompress`, `sbcutInternal`, `sbflushInternal`: The loops.
* `step`: The operations.
-/

namespace FreeBSDKern.Sockbuf

open Function

def mtData : Nat := 1

def mtSoname : Nat := 8

def mtOobdata : Nat := 15

def msize : Nat := 256

def mlen : Nat := 224

def mclbytes : Nat := 2048

structure Mbuf where
  data : List (BitVec 8)
  type : Nat
  /-- `M_EOR`. -/
  eor : Bool
  /-- `ext_size`, if `M_EXT` is set. -/
  ext : Option Nat
  /-- The room behind the data. -/
  room : Nat
  rdonly : Bool
  /-- Somebody else refers to the external storage. -/
  shared : Bool
  /-- `m_pkthdr.len`, if `M_PKTHDR` is set. -/
  pktlen : Option (BitVec 32)
  deriving DecidableEq

/-- `M_WRITABLE`. -/
def Mbuf.writable (m : Mbuf) : Bool := !m.rdonly && (m.ext.isNone || !m.shared)

/-- `M_TRAILINGSPACE`. -/
def Mbuf.trailingspace (m : Mbuf) : Nat := if m.writable then m.room else 0

inductive Counter where
  | acc | ccc | ctl | mbcnt | mcnt | ccnt
  deriving DecidableEq

/-- What some bytes of a type count. -/
def dataWeight (type len : Nat) : Counter → Nat
  | .acc => len
  | .ccc => len
  | .ctl => if type ≠ mtData ∧ type ≠ mtOobdata then len else 0
  | _ => 0

/-- What a mbuf counts besides its bytes. -/
def storeWeight (ext : Option Nat) : Counter → Nat
  | .mbcnt => msize + ext.getD 0
  | .mcnt => 1
  | .ccnt => if ext.isSome then 1 else 0
  | _ => 0

def Mbuf.weight (m : Mbuf) (c : Counter) : Nat :=
  dataWeight m.type m.data.length c + storeWeight m.ext c

structure Sb where
  mbufs : Nat → Mbuf
  next : Nat → Option Nat
  nextpkt : Nat → Option Nat
  /-- The number that the next mbuf gets. -/
  fresh : Nat
  mb : Option Nat
  mbtail : Option Nat
  lastrecord : Option Nat
  counts : Counter → BitVec 32
  hiwat : BitVec 32
  mbmax : BitVec 32
  /-- `SB_STOP`. -/
  stop : Bool
  /-- `SB_NOCOALESCE`. -/
  nocoalesce : Bool

def empty : Sb where
  mbufs := fun _ => ⟨[], mtData, false, none, 0, false, false, none⟩
  next := fun _ => none
  nextpkt := fun _ => none
  fresh := 0
  mb := none
  mbtail := none
  lastrecord := none
  counts := fun _ => 0
  hiwat := 65536
  mbmax := 524288
  stop := false
  nocoalesce := false

/-- A chain of mbufs with their numbers. -/
abbrev Chain := List (Nat × Mbuf)

def Sb.number (sb : Sb) (chain : List Mbuf) : Chain :=
  (List.range' sb.fresh chain.length).zip chain

def sballoc (sb : Sb) (m : Mbuf) : Sb :=
  { sb with counts := fun c => sb.counts c + BitVec.ofNat 32 (m.weight c) }

def sbfree (sb : Sb) (m : Mbuf) : Sb :=
  { sb with counts := fun c => sb.counts c - BitVec.ofNat 32 (m.weight c) }

def sbspace (sb : Sb) : Int :=
  if sb.stop then 0
  else
    let bleft := (sb.hiwat - sb.counts .ccc).toInt
    let mleft := (sb.mbmax - sb.counts .mbcnt).toInt
    if bleft < mleft then bleft else mleft

/-- `SBLINKRECORD`. -/
def sblinkrecord (sb : Sb) (i : Nat) : Sb :=
  match sb.lastrecord with
  | some l => { sb with nextpkt := update sb.nextpkt l (some i), lastrecord := some i }
  | none => { sb with mb := some i, lastrecord := some i }

/-- A mbuf goes onto the queue behind `n`, or as the first one. -/
def linkMbuf (sb : Sb) (n : Option Nat) (i : Nat) (m : Mbuf) : Sb :=
  let sb := match n with
    | some n => { sb with next := update sb.next n (some i) }
    | none => { sb with mb := some i }
  sballoc { sb with
    mbufs := update sb.mbufs i { m with eor := false }
    next := update sb.next i none
    nextpkt := update sb.nextpkt i none
    mbtail := some i } m

/-- The data of `m` goes behind that of mbuf `n`. -/
def coalesce (sb : Sb) (n : Nat) (m : Mbuf) : Sb :=
  { sb with
    mbufs := update sb.mbufs n
      { sb.mbufs n with
        data := (sb.mbufs n).data ++ m.data, room := (sb.mbufs n).room - m.data.length }
    counts := fun c => sb.counts c + BitVec.ofNat 32 (dataWeight m.type m.data.length c) }

/-- The condition for that. -/
def coalesces (sb : Sb) (n m : Mbuf) : Bool :=
  !n.eor && n.writable && !sb.nocoalesce && m.data.length ≤ mclbytes / 4 &&
    m.data.length ≤ n.trailingspace && n.type = m.type

/-- The type of the mbuf after one that is empty, or before it if it is the last. -/
def neighbour (sb : Sb) (rest : Chain) (n : Option Nat) : Option Nat :=
  match rest with
  | (_, o) :: _ => some o.type
  | [] => n.map (fun n => (sb.mbufs n).type)

def setEor (sb : Sb) (n : Nat) : Sb :=
  { sb with mbufs := update sb.mbufs n { sb.mbufs n with eor := true } }

/-- The loop of `sbcompress`, with the chain that is left, the last mbuf on the queue
    and the mark that is carried along. -/
def sbcompress (sb : Sb) : Chain → Option Nat → Bool → Option Sb
  | [], n, eor => if eor then n.map (setEor sb) else some sb
  | (i, m) :: rest, n, eor =>
    let eor := eor || m.eor
    if m.data = [] ∧ (eor = false ∨ neighbour sb rest n = some m.type) then
      sbcompress
        (if sb.lastrecord = some i then { sb with lastrecord := rest.head?.map (fun e => e.1) }
          else sb) rest n eor
    else if n.any (fun n => coalesces sb (sb.mbufs n) m) then
      sbcompress (n.elim sb (fun n => coalesce sb n m)) rest n eor
    else sbcompress (linkMbuf sb n i m) rest (some i) eor

/-- The mark of the first mbuf goes to the second one. -/
def passEor (m0 : Mbuf) : Chain → Chain
  | [] => []
  | (i, m) :: rest => (i, { m with eor := m.eor || m0.eor }) :: rest

def sbappendrecordLocked (sb : Sb) : Chain → Option Sb
  | [] => some sb
  | (i, m0) :: rest =>
    let sb := sballoc sb m0
    let sb := sblinkrecord { sb with
      mbufs := update sb.mbufs i { m0 with eor := m0.eor && rest.isEmpty }
      next := update sb.next i none
      nextpkt := update sb.nextpkt i none } i
    sbcompress { sb with mbtail := some i } (passEor m0 rest) (some i) false

/-- The last record from `n` on. -/
def lastPkt (nextpkt : Nat → Option Nat) : Nat → Nat → Option Nat
  | 0, _ => none
  | fuel + 1, n =>
    match nextpkt n with
    | none => some n
    | some k => lastPkt nextpkt fuel k

/-- The last mbuf of a record from `n` on, and whether a mark is met before. -/
def findEor (sb : Sb) : Nat → Nat → Option (Bool × Nat)
  | 0, _ => none
  | fuel + 1, n =>
    if (sb.mbufs n).eor then some (true, n)
    else
      match sb.next n with
      | none => some (false, n)
      | some k => findEor sb fuel k

/-- Appending to the record that begins at `n`, or after it if it has a mark. -/
def appendTo (sb : Sb) (chain : Chain) (n : Nat) : Option Sb :=
  (findEor sb sb.fresh n).bind (fun r =>
    if r.1 then sbappendrecordLocked sb chain else sbcompress sb chain (some r.2) false)

def sbappendLocked (sb : Sb) (chain : Chain) : Option Sb :=
  match chain with
  | [] => some sb
  | (i, _) :: _ =>
    match sb.mb with
    | some n => (lastPkt sb.nextpkt sb.fresh n).bind (appendTo sb chain)
    | none =>
      match sb.lastrecord with
      | some n => appendTo sb chain n
      | none => sbcompress { sb with lastrecord := some i } chain none false

/-- `m_demote` of one mbuf. -/
def demote (m : Mbuf) : Mbuf := { m with eor := false, pktlen := none }

def sbappendstreamLocked (sb : Sb) (chain : Chain) : Option Sb :=
  if chain = [] ∨ sb.mb ≠ sb.lastrecord then none
  else
    (sbcompress sb (chain.map (fun e => (e.1, demote e.2))) sb.mbtail false).map (fun sb =>
      { sb with lastrecord := sb.mb })

/-- A chain goes onto the queue as it is. -/
def install (sb : Sb) : Chain → Sb
  | [] => sb
  | (i, m) :: rest =>
    let sb := install sb rest
    sballoc { sb with
      mbufs := update sb.mbufs i m
      next := update sb.next i (rest.head?.map (fun e => e.1))
      nextpkt := update sb.nextpkt i none } m

/-- A chain that is not empty becomes a record as it is. -/
def appendChain (sb : Sb) (chain : Chain) : Sb :=
  match chain with
  | [] => sb
  | (i, m) :: rest =>
    { sblinkrecord (install sb chain) i with mbtail := (((i, m) :: rest).getLast?).map (fun e => e.1) }

def mLength (chain : Chain) : BitVec 32 :=
  BitVec.ofNat 32 (chain.map (fun e => e.2.data.length)).sum

def soname (asa : List (BitVec 8)) : Mbuf :=
  ⟨asa, mtSoname, false, none, mlen - asa.length, false, false, none⟩

/-- `sbappendaddr_locked`: the mbuf of the address, which may not be had, the control
    mbufs and the data. -/
def sbappendaddrLocked (sb : Sb) (asa : Nat × Mbuf) (alloc : Bool) (m0 control : Chain) :
    Option (Sb × Bool) :=
  match m0.head?.map (fun e => e.2.pktlen) with
  | some none => none
  | len =>
    let space := BitVec.ofNat 32 asa.2.data.length + (len.join).getD 0 + mLength control
    if space.toInt > sbspace sb then some (sb, false)
    else if asa.2.data.length > mlen then some (sb, false)
    else if alloc = false then some (sb, false)
    else some (appendChain sb (asa :: (control ++ m0)), true)

def sbappendcontrolLocked (sb : Sb) (m0 control : Chain) : Option (Sb × Bool) :=
  if control = [] then none
  else
    if (mLength control + mLength m0).toInt > sbspace sb then some (sb, false)
    else some (appendChain sb (control ++ m0), true)

/-- Cutting into mbuf `i`. -/
def cutPart (sb : Sb) (i len : Nat) : Sb :=
  { sb with
    mbufs := update sb.mbufs i
      { sb.mbufs i with data := (sb.mbufs i).data.drop len }
    counts := fun c => sb.counts c - BitVec.ofNat 32 (dataWeight (sb.mbufs i).type len c) }

/-- The first loop of `sbcut_internal`: the current mbuf, the next record, what is
    left to cut, and the mbufs that are cut off. -/
def cutLoop : Nat → Sb → Option Nat → Option Nat → Int → List Nat →
    Option (Sb × Option Nat × Option Nat × List Nat)
  | 0, _, _, _, _, _ => none
  | fuel + 1, sb, m, next, len, mfree =>
    if 0 < len then
      match m.or next with
      | none => none
      | some i =>
        let next := if m.isSome then next else sb.nextpkt i
        if len < (sb.mbufs i).data.length then some (cutPart sb i len.toNat, some i, next, mfree)
        else
          cutLoop fuel (sbfree sb (sb.mbufs i)) (sb.next i) next
            (len - (sb.mbufs i).data.length) (i :: mfree)
    else some (sb, m, next, mfree)

/-- The second loop: mbufs without data are dropped. -/
def dropEmpty : Nat → Sb → Option Nat → List Nat → Option (Sb × Option Nat × List Nat)
  | _, sb, none, mfree => some (sb, none, mfree)
  | 0, _, some _, _ => none
  | fuel + 1, sb, some i, mfree =>
    if (sb.mbufs i).data = [] then
      dropEmpty fuel (sbfree sb (sb.mbufs i)) (sb.next i) (i :: mfree)
    else some (sb, some i, mfree)

/-- The end of `sbcut_internal`: the new front, and the two pointers to the end. -/
def newFront (sb : Sb) (m next : Option Nat) : Sb :=
  let sb := match m with
    | some i => { sb with mb := some i, nextpkt := update sb.nextpkt i next }
    | none => { sb with mb := next }
  match sb.mb with
  | none => { sb with mbtail := none, lastrecord := none }
  | some i => if sb.nextpkt i = none then { sb with lastrecord := some i } else sb

def sbcutInternal (sb : Sb) (len : Int) : Option (Sb × List Nat) :=
  (cutLoop (sb.fresh + 1) sb sb.mb (sb.mb.bind sb.nextpkt) len []).bind (fun r =>
    (dropEmpty sb.fresh r.1 r.2.1 r.2.2.2).map (fun d => (newFront d.1 d.2.1 r.2.2.1, d.2.2)))

/-- The loop of `sbdroprecord_locked`. -/
def freeRecord : Nat → Sb → Option Nat → Option Sb
  | _, sb, none => some sb
  | 0, _, some _ => none
  | fuel + 1, sb, some i => freeRecord fuel (sbfree sb (sb.mbufs i)) (sb.next i)

/-- `SB_EMPTY_FIXUP`. -/
def emptyFixup (sb : Sb) : Sb :=
  if sb.mb = none then { sb with mbtail := none, lastrecord := none } else sb

def sbdroprecordLocked (sb : Sb) : Option Sb :=
  match sb.mb with
  | none => some (emptyFixup sb)
  | some i =>
    (freeRecord sb.fresh { sb with mb := sb.nextpkt i } (some i)).map emptyFixup

/-- The loop goes on, and the front is not such that it would go on forever. -/
def flushing (sb : Sb) : Bool :=
  sb.counts .mbcnt ≠ 0 ∧ ¬(sb.counts .ccc = 0 ∧ sb.mb.all (fun i => (sb.mbufs i).data ≠ []) = true)

def sbflushInternal : Nat → Sb → Option Sb
  | 0, _ => none
  | fuel + 1, sb =>
    if flushing sb then
      (sbcutInternal sb (sb.counts .ccc).toInt).bind (fun r => sbflushInternal fuel r.1)
    else if sb.counts .ccc = 0 ∧ sb.mb = none ∧ sb.counts .mbcnt = 0 then some sb
    else none

inductive Op where
  | sbappend (m : List Mbuf)
  | sbappendstream (m : List Mbuf)
  | sbappendrecord (m0 : List Mbuf)
  | sbappendaddr (asa : List (BitVec 8)) (alloc : Bool) (m0 control : List Mbuf)
  | sbappendcontrol (m0 control : List Mbuf)
  /-- `sbcut_locked`, or `sbdrop_locked`. -/
  | sbcut (len : Int)
  | sbdroprecord
  | sbflush
  /-- The limits and flags of the buffer are set. -/
  | limits (hiwat mbmax : BitVec 32) (stop nocoalesce : Bool)
  /-- A reference to the storage of a mbuf is taken or dropped elsewhere. -/
  | share (i : Nat) (shared : Bool)

/-- The mbufs that come with an operation get their numbers. -/
def Sb.receive (sb : Sb) (n : Nat) : Sb := { sb with fresh := sb.fresh + n }

def step (sb : Sb) : Op → Option (Sb × Bool)
  | .sbappend m =>
    (sbappendLocked (sb.receive m.length) (sb.number m)).map (fun sb => (sb, true))
  | .sbappendstream m =>
    (sbappendstreamLocked (sb.receive m.length) (sb.number m)).map (fun sb => (sb, true))
  | .sbappendrecord m0 =>
    (sbappendrecordLocked (sb.receive m0.length) (sb.number m0)).map (fun sb => (sb, true))
  | .sbappendaddr asa alloc m0 control =>
    let chain := sb.number (soname asa :: (control ++ m0))
    sbappendaddrLocked (sb.receive (control.length + m0.length + 1))
      (sb.fresh, soname asa) alloc (chain.drop (control.length + 1))
      ((chain.drop 1).take control.length)
  | .sbappendcontrol m0 control =>
    let chain := sb.number (control ++ m0)
    sbappendcontrolLocked (sb.receive (control.length + m0.length))
      (chain.drop control.length) (chain.take control.length)
  | .sbcut len => (sbcutInternal sb len).map (fun r => (r.1, true))
  | .sbdroprecord => (sbdroprecordLocked sb).map (fun sb => (sb, true))
  | .sbflush => (sbflushInternal (sb.fresh + 1) sb).map (fun sb => (sb, true))
  | .limits hiwat mbmax stop nocoalesce =>
    some ({ sb with hiwat := hiwat, mbmax := mbmax, stop := stop, nocoalesce := nocoalesce }, true)
  | .share i shared =>
    some ({ sb with mbufs := update sb.mbufs i { sb.mbufs i with shared := shared } }, true)

end FreeBSDKern.Sockbuf
