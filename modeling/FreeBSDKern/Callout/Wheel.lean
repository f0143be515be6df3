import Mathlib

/-!
# The Callout Wheel

The wheel of `kern_timeout.c`, one CPU's. A callout waits in the slot its time
hashes to: the time in 256ths of a second, cut to 32 bits, modulo the number of
slots. `callout_process` walks the slots from the one of the last scan to the
one of the present time and hands on what is due; it then looks some way ahead
for the next event the timer has to be programmed for, and stops looking as soon
as it finds an event that cannot wait for the ones before it.

Times are 64-bit and signed, in units of `2^-32` seconds, and slot numbers are
32-bit and unsigned; both wrap as the source's do. The number of slots is `2^k`.
Callouts that run from the interrupt itself are not modelled, so the fields
`cc_bucket` and `cc_exec_next` that serve them are left out.

## Main definitions

* `CalloutCpu`: The wheel, the queue of expired callouts and the next event.
* `calloutHash`, `calloutGetBucket`: The slot of a time.
* `calloutCcAdd`, `calloutRemove`: Arming a callout and taking it back.
* `window`: The slots a scan walks over.
* `calloutProcess`: One scan.
-/

namespace FreeBSDKern.Callout

/-- A callout in the wheel. -/
structure Entry where
  id : Nat
  time : Int
  precision : Int
  deriving DecidableEq

def sbtMax : Int := 2 ^ 63 - 1

/-- Wrapping to a signed 64-bit time. -/
def toSbt (x : Int) : Int := x.bmod (2 ^ 64)

/-- Subtraction of `unsigned int`. -/
def usub (a b : Nat) : Nat := (a + 2 ^ 32 - b) % 2 ^ 32

/-- Addition of `unsigned int`. -/
def uadd (a b : Nat) : Nat := (a + b) % 2 ^ 32

/-- `(int)x <= 0`. -/
def intLeZero (x : Nat) : Bool := x = 0 ∨ 2 ^ 31 ≤ x

def calloutHash (sbt : Int) : Nat := (sbt / 2 ^ 24 % 2 ^ 32).toNat

/-- A slot number cut to the size of the wheel. -/
def slot (k b : Nat) : Nat := b &&& (2 ^ k - 1)

def calloutGetBucket (k : Nat) (sbt : Int) : Nat := slot k (calloutHash sbt)

structure CalloutCpu where
  wheel : Nat → List Entry
  expireq : List Entry
  firstevent : Int
  lastscan : Int
  /-- The arguments of the last call of `cpu_new_callout`. -/
  newCallout : Option (Int × Int)

/-- `callout_cpu_init`. -/
def calloutCpuInit : CalloutCpu := ⟨fun _ => [], [], sbtMax, 0, none⟩

def Entry.latest (c : Entry) : Int := toSbt (c.time + c.precision)

/-- The callout `callout_cc_add` arms: no earlier than the last scan, and with
    a precision that stays in range. -/
def clampEntry (lastscan : Int) (id : Nat) (sbt precision : Int) : Entry :=
  let time := if sbt < lastscan then lastscan else sbt
  ⟨id, time, if sbtMax - time < precision then sbtMax - time else precision⟩

def calloutCcAdd (k : Nat) (cc : CalloutCpu) (id : Nat) (sbt precision : Int) : CalloutCpu :=
  let c := clampEntry cc.lastscan id sbt precision
  let bucket := calloutGetBucket k c.time
  let wheel := Function.update cc.wheel bucket (c :: cc.wheel bucket)
  if c.latest < cc.firstevent then
    { cc with wheel := wheel, firstevent := c.latest, newCallout := some (c.latest, c.time) }
  else { cc with wheel := wheel }

/-- `LIST_REMOVE` of a pending callout. -/
def calloutRemove (cc : CalloutCpu) (id : Nat) : CalloutCpu :=
  { cc with wheel := fun b => (cc.wheel b).filter (fun c => c.id ≠ id) }

def lookahead (firstb nowb : Nat) : Int :=
  if nowb = firstb then 2 ^ 32 / 16
  else if usub nowb firstb = 1 then 2 ^ 32 / 8
  else 2 ^ 32 / 2

/-- Where a scan starts, has to get to, and may get to. -/
structure Window where
  firstb : Nat
  nowb : Nat
  lastb : Nat
  first : Int
  last : Int

def window (k : Nat) (lastscan now : Int) : Window :=
  let firstb := calloutHash lastscan
  let nowb := calloutHash now
  let ahead := lookahead firstb nowb
  let first := toSbt (now + ahead / 2)
  let last := toSbt (now + ahead) / 2 ^ 24 * 2 ^ 24
  let lastb := usub (calloutHash last) 1
  if usub lastb firstb ≥ 2 ^ k then
    let lastb := usub (uadd firstb (2 ^ k)) 1
    ⟨firstb, if usub nowb firstb ≥ 2 ^ k then lastb else nowb, lastb, first, last⟩
  else ⟨firstb, nowb, lastb, first, last⟩

/-- What a scan has found so far. -/
structure Scan where
  expireq : List Entry
  first : Int
  last : Int
  lastb : Nat

/-- A callout that is not due yet. -/
def peek (max : Int) (nowb : Nat) (s : Scan) (tmp : Entry) : Scan :=
  if tmp.time ≥ max then s
  else if tmp.time > s.last then { s with lastb := nowb }
  else
    { s with
      first := if tmp.time < s.first then tmp.time else s.first
      last := if tmp.latest < s.last then tmp.latest else s.last }

/-- One callout of a slot. -/
def look (now max : Int) (nowb : Nat) (s : Scan) (tmp : Entry) : Scan :=
  if tmp.time ≤ now then { s with expireq := s.expireq ++ [tmp] } else peek max nowb s tmp

/-- The inner loop: the callouts of one slot, and those that stay in it. -/
def scanBucket (now max : Int) (nowb : Nat) : List Entry → Scan → List Entry × Scan
  | [], s => ([], s)
  | tmp :: sc, s =>
    let (kept, s') := scanBucket now max nowb sc (look now max nowb s tmp)
    (if tmp.time ≤ now then kept else tmp :: kept, s')

/-- The outer loop, with at most `n` slots to go. -/
def scanLoop (k : Nat) (now max : Int) (nowb : Nat) :
    Nat → Nat → (Nat → List Entry) → Scan → Option ((Nat → List Entry) × Scan)
  | 0, _, _, _ => none
  | n + 1, firstb, wheel, s =>
    let (kept, s) := scanBucket now max nowb (wheel (slot k firstb)) s
    let wheel := Function.update wheel (slot k firstb) kept
    let firstb := uadd firstb 1
    if intLeZero (usub firstb s.lastb) then scanLoop k now max nowb n firstb wheel s
    else some (wheel, s)

def calloutProcess (k : Nat) (cc : CalloutCpu) (now : Int) : Option CalloutCpu :=
  let w := window k cc.lastscan now
  let s := ⟨cc.expireq, w.first, w.last, w.lastb⟩
  (scanLoop k now w.last w.nowb (2 ^ k) w.firstb cc.wheel s).map (fun r =>
    { wheel := r.1, expireq := r.2.expireq, firstevent := r.2.last, lastscan := now
      newCallout := some (r.2.last, r.2.first) })

end FreeBSDKern.Callout
