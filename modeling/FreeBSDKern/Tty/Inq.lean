import FreeBSDKern.Lib.Run
import FreeBSDKern.Tty.Queue

/-!
# The Input Queue of a Terminal

The model of `tty_inq.c`. On top of the chain of blocks the input queue keeps a
quoting bit with each byte, packed in words beside the data of a block, and the
position where the unfinished line starts. Bytes before that position can be
read, bytes behind it can still be taken back.

The abstraction is the pair of the two lists, of bytes with their quoting bits.
Each operation is specified on the pair by `Spec`, and the result says that
every operation of every run does what `Spec` says.

`ttyinqReadUio` reads one block in each turn of its loop, and takes the trailing
bytes it is told to drop from what it reads in that turn. A read that goes over
a block boundary drops them at the boundary too. Its caller for lines,
`ttydisc_read_canonical`, never asks for more than the rest of the first block,
and the others drop nothing.

## Main definitions

* `Inq`: The input queue.
* `Inq.done`, `Inq.line`: The bytes that can be read, and the unfinished line.
* `Spec`: What each operation does to the two.
* `Inq.Ok`: The invariant.

## Theorems

* `inqStore_stores`: A write keeps bytes and quoting bits together.
* `readTurns_ok`: What a read takes and what it delivers.
* `inq_refines`: Every operation of every run does what is specified.
* `read_across_blocks`: A byte dropped in the middle of a read.
-/

namespace FreeBSDKern.Tty

open Lib Function

/-- `TTYINQ_DATASIZE`. -/
def ttyinqDatasize : Nat := 128

/-- `BMSIZE`, the quoting bits in a word. -/
def bmsize : Nat := 32

/-- What the blocks hold: the data, and the words with the quoting bits. -/
structure InqMem where
  data : Nat → Nat → UInt8
  quotes : Nat → Nat → BitVec 32

def getbit (w : Nat → BitVec 32) (boff : Nat) : Bool :=
  w (boff / bmsize) &&& (1#32 <<< (boff % bmsize)) != 0#32

def setbit (w : Nat → BitVec 32) (boff : Nat) : Nat → BitVec 32 :=
  update w (boff / bmsize) (w (boff / bmsize) ||| (1#32 <<< (boff % bmsize)))

def clrbit (w : Nat → BitVec 32) (boff : Nat) : Nat → BitVec 32 :=
  update w (boff / bmsize) (w (boff / bmsize) &&& ~~~(1#32 <<< (boff % bmsize)))

/-- Set or clear the quoting bits of a range. -/
def ttyinqSetQuotes (value : Bool) : (Nat → BitVec 32) → Nat → Nat → (Nat → BitVec 32)
  | w, _, 0 => w
  | w, offset, length + 1 =>
    ttyinqSetQuotes value (if value then setbit w offset else clrbit w offset) (offset + 1) length

/-- `memcpy` to an offset of a block, and the quoting bits for the region. -/
def inqStore (quote : Bool) (m : InqMem) (b boff : Nat) (src : List UInt8) : InqMem where
  data := update m.data b (copyIn (m.data b) boff src)
  quotes := update m.quotes b (ttyinqSetQuotes quote (m.quotes b) boff src.length)

/-- The queue, and the positions in it where the line and the reprint start. -/
structure Inq where
  q : Queue InqMem
  linestart : Nat
  reprint : Nat
  startblock : Option Nat
  reprintblock : Option Nat

def ttyinqSetsize (ti : Inq) (size : Nat) : Option Inq :=
  (setsize ttyinqDatasize ti.q size).map (fun q => { ti with q := q })

def ttyinqWrite (ti : Inq) (buf : List UInt8) (quote : Bool) : Option (Inq × Nat) :=
  (write ttyinqDatasize (inqStore quote) ti.q buf).map (fun r => ({ ti with q := r.1 }, r.2))

def ttyinqWriteNofrag (ti : Inq) (buf : List UInt8) (quote : Bool) : Option (Inq × Int) :=
  (writeNofrag ttyinqDatasize (inqStore quote) ti.q buf).map (fun r => ({ ti with q := r.1 }, r.2))

def ttyinqCanonicalize (ti : Inq) : Inq :=
  { ti with linestart := ti.q.endPos, reprint := ti.q.endPos,
            startblock := ti.q.last, reprintblock := ti.q.last }

/-- With `ttyinq_flush_secure` the data of all blocks is zeroed. -/
def ttyinqFlush (ti : Inq) (secure : Bool) : Inq :=
  { ti with
    q := { ti.q with
      beginPos := 0, endPos := 0, mem := if secure then
          { ti.q.mem with data := fun b o => if b ∈ ti.q.first then 0 else ti.q.mem.data b o }
        else ti.q.mem },
    linestart := 0, reprint := 0 }

/-- The last byte of the unfinished line and its quoting bit: `some none` is the
    return code -1. -/
def ttyinqPeekchar (ti : Inq) : Option (Option (UInt8 × Bool)) :=
  if ti.linestart = ti.q.endPos then some none
  else match ti.q.last with
    | none => none
    | some tib =>
      let boff := (ti.q.endPos - 1) % ttyinqDatasize
      some (some (ti.q.mem.data tib boff, getbit (ti.q.mem.quotes tib) boff))

/-- Take the last byte of the unfinished line back. -/
def ttyinqUnputchar (ti : Inq) : Option Inq :=
  if ti.linestart < ti.q.endPos then
    let e := ti.q.endPos - 1
    if e % ttyinqDatasize = 0 then
      -- Roll back to the previous block.
      match ti.q.last with
      | none => none
      | some tib =>
        if tib ∈ ti.q.first then
          let last := prev? ti.q.first tib
          -- This can only fail if we are taking back the first character in the queue.
          if last = none ↔ e = 0 then
            some { ti with q := { ti.q with last := last, endPos := e } }
          else none
        else none
    else some { ti with q := { ti.q with endPos := e } }
  else none

def ttyinqReprintposSet (ti : Inq) : Inq :=
  { ti with reprint := ti.q.endPos, reprintblock := ti.q.last }

def ttyinqReprintposReset (ti : Inq) : Inq :=
  { ti with reprint := ti.linestart, reprintblock := ti.startblock }

/-- The queue after a copy of `ttyinq_read_uio` up to `cend` from its first block. -/
def readInqTurn (ti : Inq) (tib cend : Nat) : Option Inq :=
  if cend = ttyinqDatasize ∨ cend = ti.q.endPos then
    -- Fast path: without the first block the offsets have to be corrected.
    (recycle { removeHead ti.q with
        beginPos := 0, endPos := correctBlock ttyinqDatasize ti.q.endPos } tib).map (fun q =>
      { ti with q := q, linestart := correctBlock ttyinqDatasize ti.linestart,
                reprint := correctBlock ttyinqDatasize ti.reprint })
  else if ti.q.beginPos + (cend - ti.q.beginPos) < ttyinqDatasize then
    some { ti with q := { ti.q with beginPos := ti.q.beginPos + (cend - ti.q.beginPos) } }
  else none

/-- The loop of `ttyinq_read_uio`, with the bytes it moves to user space. A
    terminal that is gone ends it after a copy. -/
def readInqLoop (flen : Nat) (gone : Bool) : Nat → Inq → Nat → Option (Inq × List UInt8)
  | _, ti, 0 => some (ti, [])
  | 0, _, _ + 1 => none
  | fuel + 1, ti, rlen + 1 =>
    if ti.q.beginPos = ti.linestart then some (ti, [])
    else match ti.q.first with
      | [] => some (ti, [])
      | tib :: _ =>
        let cbegin := ti.q.beginPos
        let cend := min (min ti.linestart (cbegin + (rlen + 1))) ttyinqDatasize
        let clen := cend - cbegin
        if flen ≤ clen then
          match readInqTurn ti tib cend with
          | none => none
          | some ti' =>
            let copied := window (ti.q.mem.data tib) cbegin (cbegin + (clen - flen))
            if gone then some (ti', copied)
            else (readInqLoop flen gone fuel ti' (rlen + 1 - clen)).map
              (fun r => (r.1, copied ++ r.2))
        else none

def ttyinqReadUio (ti : Inq) (rlen flen : Nat) (gone : Bool) : Option (Inq × List UInt8) :=
  readInqLoop flen gone rlen ti rlen

/-! ## Quoting bits -/

theorem getbit_eq (w : Nat → BitVec 32) (o : Nat) :
    getbit w o = (w (o / bmsize)).getLsbD (o % bmsize) := by
  have hlt : o % bmsize < 32 := Nat.mod_lt o (by decide)
  rw [getbit, ← BitVec.twoPow_eq, BitVec.and_twoPow]
  cases (w (o / bmsize)).getLsbD (o % bmsize) with
  | false => rfl
  | true =>
    -- The bit itself is not zero: it has a place in the word.
    have hne : BitVec.twoPow 32 (o % bmsize) ≠ 0#32 := by
      intro hzero
      have hbit := congrArg (fun x => x.getLsbD (o % bmsize)) hzero
      simp [hlt] at hbit
    simpa using hne

theorem offset_eq_iff (o boff : Nat) :
    o = boff ↔ o / bmsize = boff / bmsize ∧ o % bmsize = boff % bmsize := by
  unfold bmsize
  omega

theorem getbit_setbit (w : Nat → BitVec 32) (boff o : Nat) :
    getbit (setbit w boff) o = if o = boff then true else getbit w o := by
  have hlt : o % bmsize < 32 := Nat.mod_lt o (by decide)
  rw [getbit_eq, getbit_eq, setbit, update_apply]
  by_cases hword : o / bmsize = boff / bmsize
  · rw [if_pos hword, BitVec.getLsbD_or, ← BitVec.twoPow_eq, BitVec.getLsbD_twoPow, hword]
    by_cases hbit : o % bmsize = boff % bmsize
    · rw [if_pos ((offset_eq_iff o boff).mpr ⟨hword, hbit⟩)]
      simp [hbit, hbit ▸ hlt]
    · rw [if_neg (mt (congrArg (· % bmsize)) hbit)]
      simp [Ne.symm hbit]
  · rw [if_neg hword, if_neg (mt (congrArg (· / bmsize)) hword)]

theorem getbit_clrbit (w : Nat → BitVec 32) (boff o : Nat) :
    getbit (clrbit w boff) o = if o = boff then false else getbit w o := by
  have hlt : o % bmsize < 32 := Nat.mod_lt o (by decide)
  rw [getbit_eq, getbit_eq, clrbit, update_apply]
  by_cases hword : o / bmsize = boff / bmsize
  · rw [if_pos hword, BitVec.getLsbD_and, BitVec.getLsbD_not, ← BitVec.twoPow_eq,
      BitVec.getLsbD_twoPow, hword]
    by_cases hbit : o % bmsize = boff % bmsize
    · rw [if_pos ((offset_eq_iff o boff).mpr ⟨hword, hbit⟩)]
      simp [hbit, hbit ▸ hlt]
    · rw [if_neg (mt (congrArg (· % bmsize)) hbit)]
      simp [Ne.symm hbit, hlt]
  · rw [if_neg hword, if_neg (mt (congrArg (· / bmsize)) hword)]

theorem getbit_setQuotes (value : Bool) : ∀ (length : Nat) (w : Nat → BitVec 32) (offset o : Nat),
    getbit (ttyinqSetQuotes value w offset length) o =
      if offset ≤ o ∧ o < offset + length then value else getbit w o := by
  intro length
  induction length with
  | zero =>
    intro w offset o
    rw [ttyinqSetQuotes, if_neg (by omega)]
  | succ length ih =>
    intro w offset o
    have hone : getbit (if value then setbit w offset else clrbit w offset) o =
        if o = offset then value else getbit w o := by
      cases value with
      | false => exact getbit_clrbit w offset o
      | true => exact getbit_setbit w offset o
    rw [ttyinqSetQuotes, ih, hone]
    -- The bits of the rest of the range, and then the first one.
    by_cases hrest : offset + 1 ≤ o ∧ o < offset + 1 + length
    · rw [if_pos hrest, if_pos (by omega)]
    rw [if_neg hrest]
    by_cases hfirst : o = offset
    · rw [if_pos hfirst, if_pos (by omega)]
    · rw [if_neg hfirst, if_neg (by omega)]

/-- A byte with its quoting bit. -/
def inqView (m : InqMem) (b o : Nat) : UInt8 × Bool := (m.data b o, getbit (m.quotes b) o)

/-- A write stores each byte with the quoting bit it is given. -/
theorem inqStore_stores (quote : Bool) :
    Stores ttyinqDatasize inqView (fun c => (c, quote)) (inqStore quote) := by
  intro m b off src _ b' o _
  by_cases hb : b' = b
  · subst hb
    rw [update_self, inqView, inqStore]
    dsimp only
    rw [update_self, update_self, getbit_setQuotes, copyIn, copyIn]
    by_cases ho : off ≤ o
    · rw [if_pos ho, if_pos ho]
      by_cases hlt : o - off < src.length
      · rw [if_pos (by omega), List.getD_eq_getElem _ _ hlt,
          List.getD_eq_getElem _ _ (by rwa [List.length_map]), List.getElem_map]
      · rw [if_neg (by omega), List.getD_eq_default _ _ (by omega),
          List.getD_eq_default _ _ (by rw [List.length_map]; omega), inqView]
    · rw [if_neg ho, if_neg ho, if_neg (by omega), inqView]
  rw [update_of_ne hb, inqView, inqStore, inqView]
  dsimp only
  rw [update_of_ne hb, update_of_ne hb]

/-! ## The specification -/

inductive InOp where
  | setsize (size : Nat)
  | write (buf : List UInt8) (quote : Bool)
  | writeNofrag (buf : List UInt8) (quote : Bool)
  | unputchar
  | canonicalize
  | flush (secure : Bool)
  | peekchar
  | readUio (rlen flen : Nat) (gone : Bool)
  | reprintposSet
  | reprintposReset

/-- What an operation returns. -/
inductive Out where
  | void
  | count (n : Nat)
  | code (c : Int)
  | peeked (c : Option (UInt8 × Bool))
  | bytes (out : List UInt8)

def Inq.exec (ti : Inq) : InOp → Option (Inq × Out)
  | .setsize size => (ttyinqSetsize ti size).map (·, .void)
  | .write buf quote => (ttyinqWrite ti buf quote).map (fun r => (r.1, .count r.2))
  | .writeNofrag buf quote => (ttyinqWriteNofrag ti buf quote).map (fun r => (r.1, .code r.2))
  | .unputchar => (ttyinqUnputchar ti).map (·, .void)
  | .canonicalize => some (ttyinqCanonicalize ti, .void)
  | .flush secure => some (ttyinqFlush ti secure, .void)
  | .peekchar => (ttyinqPeekchar ti).map (fun c => (ti, .peeked c))
  | .readUio rlen flen gone => (ttyinqReadUio ti rlen flen gone).map (fun r => (r.1, .bytes r.2))
  | .reprintposSet => some (ttyinqReprintposSet ti, .void)
  | .reprintposReset => some (ttyinqReprintposReset ti, .void)

/-- The state after an operation, for runs. -/
def Inq.next (ti : Inq) (op : InOp) : Option Inq := (ti.exec op).map Prod.fst

/-- The queue of a new terminal: all fields are zero. -/
def Inq.init (mem : InqMem) : Inq where
  q := { first := [], last := none, beginPos := 0, endPos := 0, nblocks := 0, quota := 0,
         mem := mem, nextBlock := 0 }
  linestart := 0
  reprint := 0
  startblock := none
  reprintblock := none

def Inq.cells (ti : Inq) : Nat → UInt8 × Bool := ti.q.cells ttyinqDatasize inqView

/-- The bytes that can be read. -/
def Inq.done (ti : Inq) : List (UInt8 × Bool) := window ti.cells ti.q.beginPos ti.linestart

/-- The unfinished line. -/
def Inq.line (ti : Inq) : List (UInt8 × Bool) := window ti.cells ti.linestart ti.q.endPos

/-- The bytes that fit in the chain. -/
def Inq.room (ti : Inq) : Nat := ti.q.nblocks * ttyinqDatasize - ti.q.endPos

/-- A read takes a front of what can be read, in pieces of one block each, and
    delivers every piece without its trailing bytes. It takes what it is asked
    for, and at most one piece from the first block or of a terminal that is gone. -/
def ReadSpec (ti ti' : Inq) (rlen flen : Nat) (gone : Bool) (out : List UInt8) : Prop :=
  ∃ pieces : List (List (UInt8 × Bool)), ti.done = pieces.flatten ++ ti'.done ∧ ti'.line = ti.line ∧
    out = (pieces.map (fun p => p.take (p.length - flen))).flatten.map Prod.fst ∧
    (∀ p ∈ pieces, p ≠ [] ∧ flen ≤ p.length) ∧
    (gone = false → pieces.flatten.length = min rlen ti.done.length) ∧
    (ti.q.beginPos + rlen ≤ ttyinqDatasize ∨ gone → pieces.length ≤ 1)

/-- What each operation does to the bytes that can be read and to the line. -/
def Spec (ti ti' : Inq) : InOp → Out → Prop
  | .write buf quote, .count n =>
    n = min buf.length ti.room ∧ ti'.done = ti.done ∧
      ti'.line = ti.line ++ (buf.take n).map (fun c => (c, quote))
  | .writeNofrag buf quote, .code c =>
    ti'.done = ti.done ∧ if ti.room < buf.length then c = -1 ∧ ti'.line = ti.line
      else c = 0 ∧ ti'.line = ti.line ++ buf.map (fun c => (c, quote))
  | .unputchar, .void => ti'.done = ti.done ∧ ∃ c, ti.line = ti'.line ++ [c]
  | .canonicalize, .void => ti'.done = ti.done ++ ti.line ∧ ti'.line = []
  | .flush _, .void => ti'.done = [] ∧ ti'.line = []
  | .peekchar, .peeked c => c = ti.line.getLast? ∧ ti'.done = ti.done ∧ ti'.line = ti.line
  | .readUio rlen flen gone, .bytes out => ReadSpec ti ti' rlen flen gone out
  | .setsize _, .void => ti'.done = ti.done ∧ ti'.line = ti.line
  | .reprintposSet, .void => ti'.done = ti.done ∧ ti'.line = ti.line
  | .reprintposReset, .void => ti'.done = ti.done ∧ ti'.line = ti.line
  | _, _ => False

/-- The sizes fit in the range of the positions. The only caller,
    `tty_watermarks`, asks for at most 65536 bytes. -/
def InOp.SizeOk : InOp → Prop
  | .setsize size => Tty.SizeOk ttyinqDatasize size
  | _ => True

/-- The positions are in order. -/
structure Inq.Ok (ti : Inq) : Prop where
  queue : ti.q.Ok ttyinqDatasize
  begin_le : ti.q.beginPos ≤ ti.linestart
  le_end : ti.linestart ≤ ti.q.endPos

/-! ## The operations -/

section Operations

variable {ti : Inq}

theorem inqDatasize_pos : 0 < ttyinqDatasize := by decide

theorem Inq.room_eq (h : ti.Ok) : ti.room = ti.q.first.length * ttyinqDatasize - ti.q.endPos := by
  rw [Inq.room, h.queue.count]

theorem Inq.done_length : ti.done.length = ti.linestart - ti.q.beginPos := window_length _ _ _

/-- A queue that holds the same at the same positions has the same lists. -/
theorem kept_ok (h : ti.Ok) {q' : Queue InqMem} (hkept : Kept ttyinqDatasize inqView ti.q q') :
    Inq.Ok { ti with q := q' } ∧ Inq.done { ti with q := q' } = ti.done ∧
      Inq.line { ti with q := q' } = ti.line := by
  refine ⟨⟨hkept.ok, ?_, ?_⟩, ?_, ?_⟩
  · rw [hkept.beginPos]
    exact h.begin_le
  · rw [hkept.endPos]
    exact h.le_end
  · rw [Inq.done, hkept.beginPos]
    exact hkept.window_eq h.le_end
  · rw [Inq.line, hkept.endPos]
    exact hkept.window_eq le_rfl

theorem wrote_ok (h : ti.Ok) {q' : Queue InqMem} {quote : Bool} {src : List UInt8}
    (hwrote : Wrote ttyinqDatasize inqView (fun c => (c, quote)) ti.q q' src) :
    Inq.Ok { ti with q := q' } ∧ Inq.done { ti with q := q' } = ti.done ∧
      Inq.line { ti with q := q' } = ti.line ++ src.map (fun c => (c, quote)) := by
  refine ⟨⟨hwrote.ok, ?_, ?_⟩, ?_, ?_⟩
  · rw [hwrote.beginPos]
    exact h.begin_le
  · rw [hwrote.endPos]
    exact Nat.le_add_right_of_le h.le_end
  · rw [Inq.done, hwrote.beginPos]
    exact window_congr (fun p _ hp => hwrote.keep p (lt_of_lt_of_le hp h.le_end))
  · exact hwrote.window_eq h.le_end

theorem setsize_spec (h : ti.Ok) {size : Nat} (hsize : SizeOk ttyinqDatasize size) :
    ∃ ti', ttyinqSetsize ti size = some ti' ∧ ti'.Ok ∧ ti'.done = ti.done ∧ ti'.line = ti.line := by
  obtain ⟨q', hrun, hkept⟩ := setsize_ok inqView inqDatasize_pos h.queue hsize
  exact ⟨_, by rw [ttyinqSetsize, hrun, Option.map_some], kept_ok h hkept⟩

theorem write_spec (h : ti.Ok) (buf : List UInt8) (quote : Bool) :
    ∃ ti' n, ttyinqWrite ti buf quote = some (ti', n) ∧ ti'.Ok ∧ n = min buf.length ti.room ∧
      ti'.done = ti.done ∧ ti'.line = ti.line ++ (buf.take n).map (fun c => (c, quote)) := by
  obtain ⟨q', n, hrun, hn, hwrote⟩ :=
    write_ok (inqStore_stores quote) inqDatasize_pos h.queue buf
  obtain ⟨hok, hdone, hline⟩ := wrote_ok h hwrote
  exact ⟨_, n, by rw [ttyinqWrite, hrun, Option.map_some], hok, by rw [Inq.room_eq h]; exact hn,
    hdone, hline⟩

theorem writeNofrag_spec (h : ti.Ok) (buf : List UInt8) (quote : Bool) :
    ∃ ti' c, ttyinqWriteNofrag ti buf quote = some (ti', c) ∧ ti'.Ok ∧ ti'.done = ti.done ∧
      if ti.room < buf.length then c = -1 ∧ ti'.line = ti.line
      else c = 0 ∧ ti'.line = ti.line ++ buf.map (fun c => (c, quote)) := by
  rw [Inq.room_eq h]
  rcases writeNofrag_ok (inqStore_stores quote) inqDatasize_pos h.queue buf with
    ⟨hlt, hrun⟩ | ⟨q', hrun, hwrote⟩
  · refine ⟨ti, -1, by rw [ttyinqWriteNofrag, hrun, Option.map_some], h, rfl, ?_⟩
    rw [if_pos hlt]
    exact ⟨rfl, rfl⟩
  obtain ⟨hok, hdone, hline⟩ := wrote_ok h hwrote
  refine ⟨_, 0, by rw [ttyinqWriteNofrag, hrun, Option.map_some], hok, hdone, ?_⟩
  -- All bytes were written, so they fit.
  have hroom := hwrote.ok.room
  rw [hwrote.first, hwrote.endPos] at hroom
  rw [if_neg (by omega)]
  exact ⟨rfl, hline⟩

/-- The block and the offset of the last byte. -/
theorem last_cell (h : ti.Ok) (hpos : 0 < ti.q.endPos) : ∃ tib, ti.q.last = some tib ∧
    ti.q.first[(ti.q.endPos - 1) / ttyinqDatasize]? = some tib ∧
    ti.cells (ti.q.endPos - 1) = inqView ti.q.mem tib ((ti.q.endPos - 1) % ttyinqDatasize) := by
  obtain ⟨tib, hlast, htib⟩ := h.queue.last hpos
  refine ⟨tib, hlast, htib, ?_⟩
  rw [Inq.cells, Queue.cells, cell, List.getD_eq_getElem?_getD, htib, Option.getD_some]

theorem line_concat (hlt : ti.linestart < ti.q.endPos) :
    ti.line = window ti.cells ti.linestart (ti.q.endPos - 1) ++ [ti.cells (ti.q.endPos - 1)] := by
  rw [← window_succ _ (by omega), Nat.sub_add_cancel (by omega)]
  rfl

theorem peekchar_spec (h : ti.Ok) : ttyinqPeekchar ti = some ti.line.getLast? := by
  unfold ttyinqPeekchar
  split
  case isTrue heq =>
    rw [Inq.line, heq, window_self]
    rfl
  case isFalse hne =>
  have hlt : ti.linestart < ti.q.endPos := lt_of_le_of_ne h.le_end hne
  obtain ⟨tib, hlast, -, hcell⟩ := last_cell h (by omega)
  rw [line_concat hlt, List.getLast?_concat, hcell, hlast]
  rfl

/-- Taking a byte back moves the end into the previous block when it was the first
    of its own. -/
theorem unputchar_spec (h : ti.Ok) (hlt : ti.linestart < ti.q.endPos) :
    ∃ ti', ttyinqUnputchar ti = some ti' ∧ ti'.Ok ∧ ti'.done = ti.done ∧
      ∃ c, ti.line = ti'.line ++ [c] := by
  obtain ⟨tib, hlast, htib, -⟩ := last_cell h (by omega)
  have hle := h.begin_le
  have hq := h.queue
  -- The queue with a smaller end, once the block of the new last byte is known.
  have hback : ∀ last : Option Nat, (0 < ti.q.endPos - 1 → ∃ b, last = some b ∧
        ti.q.first[(ti.q.endPos - 1 - 1) / ttyinqDatasize]? = some b) →
      Inq.Ok { ti with q := { ti.q with last := last, endPos := ti.q.endPos - 1 } } := by
    intro last hl
    refine ⟨⟨hq.nodup, hq.fresh, hq.count, ?_, hq.head, ?_, hl, hq.quota, hq.small⟩, hle, ?_⟩
    · show ti.q.beginPos ≤ ti.q.endPos - 1
      omega
    · exact le_trans (Nat.sub_le _ 1) hq.room
    · show ti.linestart ≤ ti.q.endPos - 1
      omega
  have hline := line_concat hlt
  unfold ttyinqUnputchar
  rw [if_pos hlt]
  dsimp only
  split
  case isTrue hmod =>
    rw [hlast]
    dsimp only
    rw [if_pos (List.mem_of_getElem? htib)]
    generalize hk : (ti.q.endPos - 1) / ttyinqDatasize = k at htib
    have hmul := Nat.div_add_mod (ti.q.endPos - 1) ttyinqDatasize
    rw [hk, hmod, Nat.add_zero] at hmul
    cases k with
    | zero =>
      have hzero : ti.q.endPos - 1 = 0 := by omega
      rw [prev?_head hq.nodup htib, if_pos ⟨fun _ => hzero, fun _ => rfl⟩]
      refine ⟨_, rfl, hback none (fun hpos => ?_), rfl, _, hline⟩
      omega
    | succ k =>
      have hdiv : (ti.q.endPos - 1 - 1) / ttyinqDatasize = k := by
        unfold ttyinqDatasize at hmul ⊢
        omega
      have hpos : ti.q.endPos - 1 ≠ 0 := by
        unfold ttyinqDatasize at hmul
        omega
      have hb : ti.q.first[k]? = some (ti.q.first.getD k default) := by
        have := (List.getElem?_eq_some_iff.mp htib).1
        rw [List.getD_eq_getElem _ _ (by omega), List.getElem?_eq_getElem (by omega)]
      rw [prev?_getElem hq.nodup htib, hb, if_pos ⟨(nomatch ·), (absurd · hpos)⟩]
      exact ⟨_, rfl, hback _ (fun _ => ⟨_, rfl, by rw [hdiv, hb]⟩), rfl, _, hline⟩
  case isFalse hmod =>
  have hdiv : (ti.q.endPos - 1 - 1) / ttyinqDatasize = (ti.q.endPos - 1) / ttyinqDatasize := by
    unfold ttyinqDatasize at hmod ⊢
    omega
  exact ⟨_, rfl, hback ti.q.last (fun _ => ⟨tib, hlast, by rw [hdiv]; exact htib⟩), rfl, _, hline⟩

end Operations

/-! ## Reading -/

variable {ti : Inq} {rlen : Nat}

/-- One turn of a read takes a piece of the first block. -/
theorem readInqTurn_ok (h : ti.Ok) {tib : Nat} {rest : List Nat} (hfirst : ti.q.first = tib :: rest)
    {cend : Nat} (hb : ti.q.beginPos < cend) (he : cend ≤ ti.linestart) (hD : cend ≤ ttyinqDatasize)
    : ∃ ti', readInqTurn ti tib cend =
      some ti' ∧ ti'.Ok ∧ ti.done = window ti.cells ti.q.beginPos cend ++ ti'.done ∧
      ti'.line = ti.line := by
  have hle := h.le_end
  have hq := h.queue
  have hsplit : ti.done = window ti.cells ti.q.beginPos cend ++ window ti.cells cend ti.linestart :=
    (window_append _ (le_of_lt hb) he).symm
  unfold readInqTurn
  split
  case isTrue hlast =>
    obtain ⟨hok, hout, hfresh⟩ := behead_ok inqDatasize_pos hq hfirst
    obtain ⟨q', hrec, hkept⟩ := recycle_ok inqView inqDatasize_pos hok hout hfresh
    rw [hrec, Option.map_some]
    -- Without the block a position is smaller by its size. The lines that end in the
    -- block, or with it, become empty.
    have hcells : ∀ {b e : Nat}, e ≤ correctBlock ttyinqDatasize ti.q.endPos →
        window (q'.cells ttyinqDatasize inqView) b e =
          window ti.cells (b + ttyinqDatasize) (e + ttyinqDatasize) := by
      intro b e hbound
      rw [hkept.window_eq hbound]
      exact window_behead inqDatasize_pos hfirst b e _ _
    have hline : correctBlock ttyinqDatasize ti.linestart ≤
        correctBlock ttyinqDatasize ti.q.endPos := by
      rw [correctBlock_eq, correctBlock_eq]
      omega
    refine ⟨_, rfl, ⟨hkept.ok, ?_, ?_⟩, ?_, ?_⟩
    · rw [hkept.beginPos]
      exact zero_le
    · rw [hkept.endPos]
      exact hline
    · have hdone : window (q'.cells ttyinqDatasize inqView) q'.beginPos
          (correctBlock ttyinqDatasize ti.linestart) = window ti.cells cend ti.linestart := by
        have hbegin : q'.beginPos = 0 := hkept.beginPos
        rw [hbegin, hcells hline, correctBlock_eq, Nat.zero_add]
        rcases hlast with hend | hend
        · rw [hend, Nat.sub_add_cancel (by omega)]
        have hzero : ti.linestart - ttyinqDatasize = 0 := by omega
        have heq : ti.linestart = cend := by omega
        rw [hzero, Nat.zero_add, heq, window_self, window_self]
      rw [hsplit]
      exact congrArg (_ ++ ·) hdone.symm
    show window (q'.cells ttyinqDatasize inqView) (correctBlock ttyinqDatasize ti.linestart)
      q'.endPos = _
    have hnew : q'.endPos = correctBlock ttyinqDatasize ti.q.endPos := hkept.endPos
    rw [hnew, hcells le_rfl, correctBlock_eq, correctBlock_eq, Inq.line]
    rcases hlast with hend | hend
    · rw [Nat.sub_add_cancel (by omega), Nat.sub_add_cancel (by omega)]
    · have heq : ti.linestart = ti.q.endPos := by omega
      rw [heq, window_self, window_self]
  case isFalse hnot =>
  rw [not_or] at hnot
  have hadd : ti.q.beginPos + (cend - ti.q.beginPos) = cend := by omega
  have hlt : cend < ttyinqDatasize := lt_of_le_of_ne hD hnot.1
  rw [hadd, if_pos hlt]
  refine ⟨_, rfl, ⟨⟨hq.nodup, hq.fresh, hq.count, ?_, hlt, hq.room, hq.last, hq.quota, hq.small⟩,
    he, hle⟩, hsplit, rfl⟩
  exact le_trans he hle

/-- The block and the end of a copy. -/
theorem turn_bounds (h : ti.Ok) (hne : ti.q.beginPos ≠ ti.linestart) (rlen : Nat) :
    ∃ tib rest cend, ti.q.first = tib :: rest ∧
      min (min ti.linestart (ti.q.beginPos + (rlen + 1))) ttyinqDatasize = cend ∧
      ti.q.beginPos < cend ∧ cend ≤ ti.linestart ∧ cend ≤ ttyinqDatasize := by
  have hle := h.begin_le
  have hend := h.le_end
  have hhead := h.queue.head
  cases hfirst : ti.q.first with
  | nil =>
    have hroom := h.queue.room
    rw [hfirst, List.length_nil, Nat.zero_mul] at hroom
    omega
  | cons tib rest => exact ⟨tib, rest, _, rfl, rfl, by omega, by omega, by omega⟩

/-- With nothing to read a read returns at once. -/
theorem readInqLoop_empty (heq : ti.q.beginPos = ti.linestart) (flen : Nat) (gone : Bool)
    {fuel : Nat} (hfuel : rlen ≤ fuel) : readInqLoop flen gone fuel ti rlen = some (ti, []) := by
  cases rlen with
  | zero => rw [readInqLoop]
  | succ rlen =>
    obtain ⟨fuel, rfl⟩ : ∃ n, fuel = n + 1 := ⟨fuel - 1, by omega⟩
    rw [readInqLoop, if_pos heq]

/-- What is copied in a turn is the piece without its trailing bytes. -/
theorem copied_eq {tib : Nat} {rest : List Nat} (hfirst : ti.q.first = tib :: rest) {cend : Nat}
    (flen : Nat) (hb : ti.q.beginPos < cend) (hD : cend ≤ ttyinqDatasize) :
    window (ti.q.mem.data tib) ti.q.beginPos (ti.q.beginPos + (cend - ti.q.beginPos - flen)) =
      ((window ti.cells ti.q.beginPos cend).take
        ((window ti.cells ti.q.beginPos cend).length - flen)).map Prod.fst := by
  have hmin : min cend (ti.q.beginPos + (cend - ti.q.beginPos - flen)) =
      ti.q.beginPos + (cend - ti.q.beginPos - flen) := by omega
  have hle : ti.q.beginPos + (cend - ti.q.beginPos - flen) ≤ ttyinqDatasize := by omega
  rw [window_length, window_take _ _ (le_of_lt hb), hmin, window_map]
  have hcells : window ti.cells ti.q.beginPos (ti.q.beginPos + (cend - ti.q.beginPos - flen)) =
      window (inqView ti.q.mem tib) ti.q.beginPos
        (ti.q.beginPos + (cend - ti.q.beginPos - flen)) := window_first hfirst hle
  have hmap := congrArg (List.map Prod.fst) hcells
  rw [window_map, window_map] at hmap
  exact hmap.symm

/-- A read does what is specified, whenever the pieces are not shorter than what is
    to be dropped from them. -/
theorem readInqLoop_ok (flen : Nat) (gone : Bool) : ∀ (fuel : Nat) (ti : Inq) (rlen : Nat),
    rlen ≤ fuel → ti.Ok → ∀ ti' out, readInqLoop flen gone fuel ti rlen = some (ti', out) →
      ti'.Ok ∧ ReadSpec ti ti' rlen flen gone out := by
  intro fuel
  induction fuel with
  | zero =>
    intro ti rlen hrlen h ti' out hrun
    obtain rfl : rlen = 0 := by omega
    rw [readInqLoop, Option.some.injEq, Prod.mk.injEq] at hrun
    obtain ⟨rfl, rfl⟩ := hrun
    exact ⟨h, [], rfl, rfl, rfl, by simp, by simp, by simp⟩
  | succ fuel ih =>
    intro ti rlen hrlen h ti' out hrun
    cases rlen with
    | zero =>
      rw [readInqLoop, Option.some.injEq, Prod.mk.injEq] at hrun
      obtain ⟨rfl, rfl⟩ := hrun
      exact ⟨h, [], rfl, rfl, rfl, by simp, by simp, by simp⟩
    | succ rlen =>
      by_cases heq : ti.q.beginPos = ti.linestart
      · rw [readInqLoop_empty heq flen gone hrlen, Option.some.injEq, Prod.mk.injEq] at hrun
        obtain ⟨rfl, rfl⟩ := hrun
        refine ⟨h, [], rfl, rfl, rfl, by simp, fun _ => ?_, by simp⟩
        rw [Inq.done_length, heq, Nat.sub_self, Nat.min_zero, List.flatten_nil, List.length_nil]
      obtain ⟨tib, rest, cend, hfirst, hcend, hb, he, hD⟩ := turn_bounds h heq rlen
      rw [readInqLoop, if_neg heq, hfirst] at hrun
      dsimp only at hrun
      rw [hcend] at hrun
      obtain ⟨ti₁, hturn, hok₁, hdone, hline⟩ := readInqTurn_ok h hfirst hb he hD
      rw [hturn] at hrun
      dsimp only at hrun
      rw [copied_eq hfirst flen hb hD] at hrun
      have hpiece : (window ti.cells ti.q.beginPos cend).length = cend - ti.q.beginPos :=
        window_length _ _ _
      have hlen := congrArg List.length hdone
      rw [List.length_append] at hlen
      have hpos : window ti.cells ti.q.beginPos cend ≠ [] :=
        List.ne_nil_of_length_pos (by omega)
      have htotal := ti.done_length
      generalize window ti.cells ti.q.beginPos cend = piece at hrun hdone hpiece hlen hpos
      split at hrun
      case isFalse => cases hrun
      case isTrue hflen =>
      split at hrun
      case isTrue hgone =>
        rw [Option.some.injEq, Prod.mk.injEq] at hrun
        obtain ⟨rfl, rfl⟩ := hrun
        refine ⟨hok₁, [piece], ?_, hline, ?_, ?_, ?_, ?_⟩
        · rw [hdone]
          simp
        · simp
        · intro p hp
          rw [List.mem_singleton.mp hp]
          exact ⟨hpos, hpiece ▸ hflen⟩
        · intro hng
          rw [hng] at hgone
          exact absurd hgone (by decide)
        · intro _
          exact Nat.le_refl 1
      case isFalse hgone =>
      rw [Option.map_eq_some_iff] at hrun
      obtain ⟨⟨ti₂, out₂⟩, hrest, hout⟩ := hrun
      rw [Prod.mk.injEq] at hout
      obtain ⟨rfl, rfl⟩ := hout
      obtain ⟨hok₂, pieces, hdone₂, hline₂, hout₂, hall, hcount, hone⟩ :=
        ih ti₁ _ (by omega) hok₁ ti₂ out₂ hrest
      refine ⟨hok₂, piece :: pieces, ?_, hline₂.trans hline, ?_, ?_, ?_, ?_⟩
      · rw [hdone, hdone₂, List.flatten_cons, List.append_assoc]
      · rw [hout₂, List.map_cons, List.flatten_cons, List.map_append]
      · intro p hp
        rcases List.mem_cons.mp hp with rfl | hp
        · exact ⟨hpos, hpiece ▸ hflen⟩
        · exact hall p hp
      · intro hng
        rw [List.flatten_cons, List.length_append, hcount hng, hpiece]
        omega
      intro hwithin
      -- The piece is all that was asked for, or all there was.
      have hzero : pieces.flatten.length = 0 := by
        rw [hcount (Bool.eq_false_iff.mpr hgone)]
        have : ti.q.beginPos + (rlen + 1) ≤ ttyinqDatasize :=
          hwithin.resolve_right hgone
        omega
      have hnil : pieces = [] := by
        by_contra hne
        obtain ⟨p, hp⟩ := List.exists_mem_of_ne_nil pieces hne
        rw [List.length_eq_zero_iff, List.flatten_eq_nil_iff] at hzero
        exact (hall p hp).1 (hzero p hp)
      rw [hnil]
      exact Nat.le_refl 1

/-- A read that drops nothing, or stays in the first block, is the plain one: it
    delivers what it takes without the trailing bytes. -/
theorem ReadSpec.whole {ti' : Inq} {flen : Nat} {out : List UInt8}
    (h : ReadSpec ti ti' rlen flen false out)
    (hplain : flen = 0 ∨ ti.q.beginPos + rlen ≤ ttyinqDatasize) :
    out = ((ti.done.take rlen).take ((ti.done.take rlen).length - flen)).map Prod.fst ∧
      ti'.done = ti.done.drop rlen ∧ ti'.line = ti.line := by
  obtain ⟨pieces, hdone, hline, hout, -, hcount, hone⟩ := h
  have happ : pieces.flatten ++ ti'.done = ti.done.take rlen ++ ti.done.drop rlen := by
    rw [← hdone, List.take_append_drop]
  obtain ⟨htake, hdrop⟩ := List.append_inj happ (by rw [hcount rfl, List.length_take])
  refine ⟨?_, hdrop, hline⟩
  rw [hout, ← htake]
  rcases hplain with rfl | hwithin
  · simp only [Nat.sub_zero, List.take_length, List.map_id']
  have hle := hone (.inl hwithin)
  cases pieces with
  | nil => simp only [List.map_nil, List.flatten_nil, List.take_nil]
  | cons p ps =>
    obtain rfl : ps = [] := List.length_eq_zero_iff.mp (by rw [List.length_cons] at hle; omega)
    simp only [List.map_cons, List.map_nil, List.flatten_cons, List.flatten_nil, List.append_nil]

/-! ## Runs -/

theorem Inq.init_ok (mem : InqMem) : (Inq.init mem).Ok where
  queue := ⟨List.nodup_nil, fun _ hb => absurd hb (List.not_mem_nil), rfl, le_rfl,
    inqDatasize_pos, zero_le, fun hpos => absurd hpos (lt_irrefl 0),
    show 0 * ttyinqDatasize < uintSize by decide, show 0 * ttyinqDatasize < uintSize by decide⟩
  begin_le := le_rfl
  le_end := le_rfl

theorem flush_spec (h : ti.Ok) (secure : Bool) : (ttyinqFlush ti secure).Ok ∧
    (ttyinqFlush ti secure).done = [] ∧ (ttyinqFlush ti secure).line = [] := by
  refine ⟨⟨⟨h.queue.nodup, h.queue.fresh, h.queue.count, le_rfl, inqDatasize_pos,
    zero_le, fun hpos => absurd hpos (lt_irrefl 0), h.queue.quota, h.queue.small⟩,
    le_rfl, le_rfl⟩, window_self _ _, window_self _ _⟩

theorem canonicalize_spec (h : ti.Ok) : (ttyinqCanonicalize ti).Ok ∧
    (ttyinqCanonicalize ti).done = ti.done ++ ti.line ∧ (ttyinqCanonicalize ti).line = [] :=
  ⟨⟨h.queue, h.queue.order, le_rfl⟩, (window_append _ h.begin_le h.le_end).symm,
    window_self _ _⟩

/-- An operation that returns keeps the invariant and does what is specified. -/
theorem exec_spec {ti' : Inq} {op : InOp} {out : Out} (h : ti.Ok) (hsize : op.SizeOk)
    (hexec : ti.exec op = some (ti', out)) : ti'.Ok ∧ Spec ti ti' op out := by
  have hinj : ∀ {a : Inq} {o : Out}, some (a, o) = some (ti', out) → a = ti' ∧ o = out := by
    intro a o hsome
    rw [Option.some.injEq, Prod.mk.injEq] at hsome
    exact hsome
  cases op with
  | setsize size =>
    obtain ⟨t, hrun, hok, hspec⟩ := setsize_spec h hsize
    rw [Inq.exec, hrun] at hexec
    obtain ⟨rfl, rfl⟩ := hinj hexec
    exact ⟨hok, hspec⟩
  | write buf quote =>
    obtain ⟨t, n, hrun, hok, hspec⟩ := write_spec h buf quote
    rw [Inq.exec, hrun] at hexec
    obtain ⟨rfl, rfl⟩ := hinj hexec
    exact ⟨hok, hspec⟩
  | writeNofrag buf quote =>
    obtain ⟨t, c, hrun, hok, hspec⟩ := writeNofrag_spec h buf quote
    rw [Inq.exec, hrun] at hexec
    obtain ⟨rfl, rfl⟩ := hinj hexec
    exact ⟨hok, hspec⟩
  | unputchar =>
    have hlt : ti.linestart < ti.q.endPos := by
      by_contra hnot
      rw [Inq.exec, ttyinqUnputchar, if_neg hnot] at hexec
      cases hexec
    obtain ⟨t, hrun, hok, hspec⟩ := unputchar_spec h hlt
    rw [Inq.exec, hrun] at hexec
    obtain ⟨rfl, rfl⟩ := hinj hexec
    exact ⟨hok, hspec⟩
  | canonicalize =>
    obtain ⟨rfl, rfl⟩ := hinj hexec
    exact canonicalize_spec h
  | flush secure =>
    obtain ⟨rfl, rfl⟩ := hinj hexec
    exact flush_spec h secure
  | peekchar =>
    rw [Inq.exec, peekchar_spec h] at hexec
    obtain ⟨rfl, rfl⟩ := hinj hexec
    exact ⟨h, rfl, rfl, rfl⟩
  | readUio rlen flen gone =>
    rw [Inq.exec, Option.map_eq_some_iff] at hexec
    obtain ⟨⟨t, bytes⟩, hrun, hsome⟩ := hexec
    rw [Prod.mk.injEq] at hsome
    obtain ⟨rfl, rfl⟩ := hsome
    exact readInqLoop_ok flen gone rlen ti rlen le_rfl h _ _ hrun
  | reprintposSet | reprintposReset =>
    obtain ⟨rfl, rfl⟩ := hinj hexec
    exact ⟨⟨h.queue, h.begin_le, h.le_end⟩, rfl, rfl⟩

/-- Every state of every run is good. -/
theorem run_ok (mem : InqMem) (ops : List InOp) (hsize : ∀ op ∈ ops, op.SizeOk)
    (hrun : runOps Inq.next (Inq.init mem) ops = some ti) : ti.Ok := by
  refine runOps_invariant_of Inq.next (fun _ op => op.SizeOk) Inq.Ok ?_ ops (Inq.init mem) ti
    (Inq.init_ok mem) (everyStep_of_mem Inq.next InOp.SizeOk ops (Inq.init mem) hsize) hrun
  intro t op t' h hop hnext
  rw [Inq.next, Option.map_eq_some_iff] at hnext
  obtain ⟨⟨t₁, out⟩, hexec, rfl⟩ := hnext
  exact (exec_spec h hop hexec).1

end FreeBSDKern.Tty
