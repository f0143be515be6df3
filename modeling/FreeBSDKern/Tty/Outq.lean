import FreeBSDKern.Lib.Run
import FreeBSDKern.Tty.Queue

/-!
# The Output Queue of a Terminal

The model of `tty_outq.c`, and what its two readers do. `ttyoutqRead` copies
bytes to a buffer. `ttyoutqReadUio` copies them to user space without a buffer
where it can: it takes the block out of the chain, drops the lock of the
terminal for the copy, and puts the block back. Other threads may write to the
queue while the lock is dropped, so each copy comes with the writes that were
made during it.

A session is the queue with the bytes it has accepted and those it has
delivered since the last flush. Its invariant says that what was accepted is
what was delivered followed by what the queue holds, so no byte is lost, made
up or moved.

## Main definitions

* `Outq`: The output queue.
* `ttyoutqRead`, `ttyoutqReadUio`: The two readers.
* `Session`: A queue with its history.
* `Session.Ok`: The queue holds what was accepted and not yet delivered.

## Theorems

* `readLoop_ok`, `readUioLoop_ok`: Both readers deliver from the front.
* `outq_fifo`: Every run is completed, what is delivered is a prefix of what was
  accepted, and the two readers agree.
-/

namespace FreeBSDKern.Tty

open Lib

/-- `TTYOUTQ_DATASIZE`, with pointers of 8 bytes. -/
def ttyoutqDatasize : Nat := 256 - 8

/-- The queue, with the data of each block. -/
abbrev Outq := Queue (Nat → Nat → UInt8)

/-- `memcpy` to an offset of a block. -/
def outqStore (m : Nat → Nat → UInt8) (b off : Nat) (src : List UInt8) : Nat → Nat → UInt8 :=
  Function.update m b (copyIn (m b) off src)

def ttyoutqFlush (q : Outq) : Outq := { q with beginPos := 0, endPos := 0 }

def ttyoutqSetsize (q : Outq) (size : Nat) : Option Outq := setsize ttyoutqDatasize q size

def ttyoutqWrite (q : Outq) (buf : List UInt8) : Option (Outq × Nat) :=
  write ttyoutqDatasize outqStore q buf

def ttyoutqWriteNofrag (q : Outq) (buf : List UInt8) : Option (Outq × Int) :=
  writeNofrag ttyoutqDatasize outqStore q buf

/-- The end address of a copy: the lowest of the write position, the end of the
    full read and the end of the block. -/
def copyEnd (q : Outq) (len : Nat) : Nat :=
  min (min q.endPos (q.beginPos + len)) ttyoutqDatasize

/-- The queue after a copy of `ttyoutq_read` up to `cend` from its first block. -/
def readTurn (q : Outq) (tob cend : Nat) : Option Outq :=
  if cend = q.endPos then
    -- Read the complete queue.
    some { q with beginPos := 0, endPos := 0 }
  else if cend = ttyoutqDatasize then
    -- Read the block until the end.
    recycle { removeHead q with beginPos := 0, endPos := q.endPos - ttyoutqDatasize } tob
  else
    -- Read the block partially.
    some { q with beginPos := q.beginPos + (cend - q.beginPos) }

/-- The loop of `ttyoutq_read`, with the bytes it copies. -/
def readLoop : Nat → Outq → Nat → Option (Outq × List UInt8)
  | _, q, 0 => some (q, [])
  | 0, _, _ + 1 => none
  | fuel + 1, q, len + 1 =>
    if q.beginPos = q.endPos then some (q, [])
    else match q.first with
      | [] => some (q, [])
      | tob :: _ =>
        let cend := copyEnd q (len + 1)
        let copied := window (q.mem tob) q.beginPos cend
        match readTurn q tob cend with
        | none => none
        | some q' => (readLoop fuel q' (len + 1 - (cend - q.beginPos))).map
            (fun r => (r.1, copied ++ r.2))

def ttyoutqRead (q : Outq) (len : Nat) : Option (Outq × List UInt8) := readLoop len q len

/-- A write made by another thread. -/
inductive Put where
  | write (buf : List UInt8)
  | writeNofrag (buf : List UInt8)

/-- One write, with the bytes it accepts. -/
def Put.run (q : Outq) : Put → Option (Outq × List UInt8)
  | .write buf => (ttyoutqWrite q buf).map (fun r => (r.1, buf.take r.2))
  | .writeNofrag buf =>
    (ttyoutqWriteNofrag q buf).map (fun r => (r.1, if r.2 = 0 then buf else []))

/-- The writes made while the lock is dropped. -/
def puts : Outq → List Put → Option (Outq × List UInt8)
  | q, [] => some (q, [])
  | q, a :: as => match a.run q with
    | none => none
    | some (q', accepted) => (puts q' as).map (fun r => (r.1, accepted ++ r.2))

/-- A copy of `ttyoutq_read_uio` up to `cend` from the first block, with the writes
    made while the lock is dropped. The results are the queue, the bytes moved to
    user space and the bytes accepted meanwhile. -/
def readUioTurn (q : Outq) (tob cend : Nat) (others : List Put) :
    Option (Outq × List UInt8 × List UInt8) :=
  if cend = ttyoutqDatasize ∨ cend = q.endPos then
    -- Fast path: the block is out of the chain while the lock is dropped, and the
    -- copy is made from there.
    match puts { removeHead q with
        beginPos := 0, endPos := correctBlock ttyoutqDatasize q.endPos } others with
    | none => none
    | some (q', accepted) =>
      (recycle q' tob).map (fun t => (t, window (q'.mem tob) q.beginPos cend, accepted))
  else if q.beginPos + (cend - q.beginPos) < ttyoutqDatasize then
    -- Slow path: the bytes are in a temporary buffer.
    (puts { q with beginPos := q.beginPos + (cend - q.beginPos) } others).map
      (fun r => (r.1, window (q.mem tob) q.beginPos cend, r.2))
  else none

/-- The loop of `ttyoutq_read_uio`. Each turn drops the lock once, for the writes
    at the head of the list. -/
def readUioLoop : Nat → Outq → Nat → List (List Put) → Option (Outq × List UInt8 × List UInt8)
  | _, q, 0, _ => some (q, [], [])
  | 0, _, _ + 1, _ => none
  | fuel + 1, q, resid + 1, windows =>
    if q.beginPos = q.endPos then some (q, [], [])
    else match q.first with
      | [] => some (q, [], [])
      | tob :: _ =>
        let cend := copyEnd q (resid + 1)
        match readUioTurn q tob cend (windows.headD []) with
        | none => none
        | some (q', copied, accepted) =>
          (readUioLoop fuel q' (resid + 1 - (cend - q.beginPos)) windows.tail).map
            (fun r => (r.1, copied ++ r.2.1, accepted ++ r.2.2))

def ttyoutqReadUio (q : Outq) (resid : Nat) (windows : List (List Put)) :
    Option (Outq × List UInt8 × List UInt8) :=
  readUioLoop resid q resid windows

/-! ## The readers -/

/-- What the queue holds, from the next byte to be read on. -/
def Outq.content (q : Outq) : List UInt8 :=
  window (q.cells ttyoutqDatasize id) q.beginPos q.endPos

theorem datasize_pos : 0 < ttyoutqDatasize := by decide

theorem outqStore_stores : Stores ttyoutqDatasize id id outqStore := by
  intro m b off src _ b' o _
  rw [List.map_id]
  rfl

section Reading

variable {q : Outq}

theorem content_length : q.content.length = q.endPos - q.beginPos := window_length _ _ _

theorem copyEnd_spec (h : q.Ok ttyoutqDatasize) (hne : q.beginPos ≠ q.endPos) (len : Nat) :
    q.beginPos < copyEnd q (len + 1) ∧ copyEnd q (len + 1) ≤ q.endPos ∧
      copyEnd q (len + 1) ≤ ttyoutqDatasize ∧ copyEnd q (len + 1) ≤ q.beginPos + (len + 1) := by
  have horder := h.order
  have hhead := h.head
  unfold copyEnd
  omega

/-- With data there is a first block. -/
theorem first_ne_nil (h : q.Ok ttyoutqDatasize) (hne : q.beginPos ≠ q.endPos) : q.first ≠ [] := by
  intro hnil
  have hroom := h.room
  have horder := h.order
  rw [hnil, List.length_nil, Nat.zero_mul] at hroom
  omega

variable {tob cend : Nat} {rest : List Nat} {q : Outq}

/-- The copy of a turn is the front of the queue. -/
theorem content_split (hfirst : q.first = tob :: rest) (hb : q.beginPos ≤ cend)
    (he : cend ≤ q.endPos) (hD : cend ≤ ttyoutqDatasize) :
    q.content = window (q.mem tob) q.beginPos cend ++
      window (q.cells ttyoutqDatasize id) cend q.endPos := by
  rw [Outq.content, ← window_append _ hb he, window_first hfirst hD]
  rfl

/-- A block that is read to its end, or to the end of the queue, can go. -/
theorem content_behead (hfirst : q.first = tob :: rest) (hb : q.beginPos ≤ cend)
    (he : cend ≤ q.endPos) (hD : cend ≤ ttyoutqDatasize)
    (hlast : cend = ttyoutqDatasize ∨ cend = q.endPos) :
    q.content = window (q.mem tob) q.beginPos cend ++ Outq.content { removeHead q with
        beginPos := 0, endPos := correctBlock ttyoutqDatasize q.endPos } := by
  have hrest : window (q.cells ttyoutqDatasize id) (0 + ttyoutqDatasize)
      (q.endPos - ttyoutqDatasize + ttyoutqDatasize) =
      window (q.cells ttyoutqDatasize id) cend q.endPos := by
    rw [Nat.zero_add]
    rcases hlast with rfl | rfl
    · rw [Nat.sub_add_cancel he]
    · have hzero : q.endPos - ttyoutqDatasize = 0 := by omega
      rw [hzero, Nat.zero_add, window_self, window_self]
  rw [content_split hfirst hb he hD, Outq.content, window_behead datasize_pos hfirst]
  dsimp only
  rw [correctBlock_eq, hrest]

theorem partial_ok (h : q.Ok ttyoutqDatasize) (he : cend ≤ q.endPos) (hD : cend < ttyoutqDatasize) :
    Queue.Ok ttyoutqDatasize { q with beginPos := cend } :=
  ⟨h.nodup, h.fresh, h.count, he, hD, h.room, h.last, h.quota, h.small⟩

theorem flush_ok (h : q.Ok ttyoutqDatasize) : Queue.Ok ttyoutqDatasize (ttyoutqFlush q) :=
  ⟨h.nodup, h.fresh, h.count, le_rfl, datasize_pos, zero_le,
    fun hpos => absurd hpos (lt_irrefl 0), h.quota, h.small⟩

theorem content_kept {q' : Outq} (h : Kept ttyoutqDatasize id q q') : q'.content = q.content := by
  rw [Outq.content, h.beginPos, h.endPos, h.window_eq le_rfl]
  rfl

end Reading

theorem readTurn_ok (h : q.Ok ttyoutqDatasize) (hfirst : q.first = tob :: rest)
    (hb : q.beginPos < cend) (he : cend ≤ q.endPos) (hD : cend ≤ ttyoutqDatasize) :
    ∃ q' : Outq, readTurn q tob cend = some q' ∧
      q'.Ok ttyoutqDatasize ∧ q.content = window (q.mem tob) q.beginPos cend ++ q'.content := by
  unfold readTurn
  split
  case isTrue hall =>
    refine ⟨_, rfl, flush_ok h, ?_⟩
    rw [content_split hfirst (le_of_lt hb) he hD, hall, window_self]
    rfl
  case isFalse hnot =>
  split
  case isTrue hend =>
    obtain ⟨hok, hout, hfresh⟩ := behead_ok datasize_pos h hfirst
    have hcorrect : correctBlock ttyoutqDatasize q.endPos = q.endPos - ttyoutqDatasize :=
      correctBlock_eq _
    have hcontent := content_behead hfirst (le_of_lt hb) he hD (.inl hend)
    rw [hcorrect] at hok hcontent
    obtain ⟨q', hrec, hkept⟩ := recycle_ok id datasize_pos hok hout hfresh
    exact ⟨q', hrec, hkept.ok, by rw [hcontent, content_kept hkept]⟩
  case isFalse hend =>
  have hadd : q.beginPos + (cend - q.beginPos) = cend := by omega
  rw [hadd]
  refine ⟨_, rfl, partial_ok h he (by omega), ?_⟩
  rw [content_split hfirst (le_of_lt hb) he hD]
  rfl

/-- `ttyoutq_read` delivers from the front of the queue, as much as it is asked for. -/
theorem readLoop_ok : ∀ (fuel : Nat) (q : Outq) (len : Nat), len ≤ fuel → q.Ok ttyoutqDatasize →
    ∃ q' out, readLoop fuel q len = some (q', out) ∧ q'.Ok ttyoutqDatasize ∧
      q.content = out ++ q'.content ∧ out.length = min len q.content.length := by
  intro fuel
  induction fuel with
  | zero =>
    intro q len hlen h
    obtain rfl : len = 0 := by omega
    exact ⟨q, [], by rw [readLoop], h, rfl, by rw [List.length_nil, Nat.zero_min]⟩
  | succ fuel ih =>
    intro q len hlen h
    cases len with
    | zero => exact ⟨q, [], by rw [readLoop], h, rfl, by rw [List.length_nil, Nat.zero_min]⟩
    | succ len =>
      rw [readLoop]
      split
      case isTrue he =>
        refine ⟨q, [], rfl, h, rfl, ?_⟩
        rw [content_length, he, Nat.sub_self, Nat.min_zero, List.length_nil]
      case isFalse hne =>
      obtain ⟨hb, he, hD, hl⟩ := copyEnd_spec h hne len
      generalize copyEnd q (len + 1) = cend at hb he hD hl
      cases hfirst : q.first with
      | nil => exact absurd hfirst (first_ne_nil h hne)
      | cons tob rest =>
        obtain ⟨q', hq', hok, hcontent⟩ := readTurn_ok h hfirst hb he hD
        obtain ⟨q'', out, hrun, hok', hrest, hout⟩ :=
          ih q' (len + 1 - (cend - q.beginPos)) (by omega) hok
        refine ⟨q'', window (q.mem tob) q.beginPos cend ++ out, ?_, hok', ?_, ?_⟩
        · simp only [hq', hrun, Option.map_some]
        · rw [hcontent, hrest, List.append_assoc]
        have hlen := congrArg List.length hcontent
        rw [List.length_append, window_length] at hlen
        rw [List.length_append, window_length, hout]
        omega

/-! ## Writes while the lock is dropped -/

theorem content_wrote {q q' : Outq} {src : List UInt8} (horder : q.beginPos ≤ q.endPos)
    (h : Wrote ttyoutqDatasize id id q q' src) : q'.content = q.content ++ src := by
  rw [Outq.content, h.beginPos, h.window_eq horder, List.map_id]
  rfl

theorem Put.run_ok (h : q.Ok ttyoutqDatasize) (a : Put) :
    ∃ q' accepted, a.run q = some (q', accepted) ∧ Wrote ttyoutqDatasize id id q q' accepted := by
  cases a with
  | write buf =>
    obtain ⟨q', n, hw, -, hwrote⟩ := write_ok outqStore_stores datasize_pos h buf
    exact ⟨q', buf.take n, by rw [Put.run, ttyoutqWrite, hw, Option.map_some], hwrote⟩
  | writeNofrag buf =>
    rcases writeNofrag_ok outqStore_stores datasize_pos h buf with ⟨-, hw⟩ | ⟨q', hw, hwrote⟩
    · exact ⟨q, [], by rw [Put.run, ttyoutqWriteNofrag, hw]; rfl, Wrote.refl h⟩
    · exact ⟨q', buf, by rw [Put.run, ttyoutqWriteNofrag, hw]; rfl, hwrote⟩

theorem puts_ok : ∀ (as : List Put) (q : Outq), q.Ok ttyoutqDatasize →
    ∃ q' accepted, puts q as = some (q', accepted) ∧
      Wrote ttyoutqDatasize id id q q' accepted ∧ (as = [] → accepted = []) := by
  intro as
  induction as with
  | nil =>
    intro q h
    exact ⟨q, [], rfl, Wrote.refl h, fun _ => rfl⟩
  | cons a as ih =>
    intro q h
    obtain ⟨q₁, s₁, h₁, hwrote₁⟩ := a.run_ok h
    obtain ⟨q₂, s₂, h₂, hwrote₂, -⟩ := ih q₁ hwrote₁.ok
    refine ⟨q₂, s₁ ++ s₂, ?_, hwrote₁.trans hwrote₂, (nomatch ·)⟩
    rw [puts, h₁]
    simp only [h₂, Option.map_some]

theorem readUioTurn_ok {q : Outq} (h : q.Ok ttyoutqDatasize) {tob : Nat} {rest : List Nat}
    (hfirst : q.first = tob :: rest) {cend : Nat} (hb : q.beginPos < cend) (he : cend ≤ q.endPos)
    (hD : cend ≤ ttyoutqDatasize) (others : List Put) : ∃ (q' : Outq) (accepted : List UInt8),
      readUioTurn q tob cend others = some (q', window (q.mem tob) q.beginPos cend, accepted) ∧
      q'.Ok ttyoutqDatasize ∧
      q.content ++ accepted = window (q.mem tob) q.beginPos cend ++ q'.content ∧
      (others = [] → accepted = []) := by
  unfold readUioTurn
  split
  case isTrue hlast =>
    obtain ⟨hok, hout, hfresh⟩ := behead_ok datasize_pos h hfirst
    have hcontent := content_behead hfirst (le_of_lt hb) he hD hlast
    obtain ⟨q₁, accepted, hputs, hwrote, hnil⟩ := puts_ok others _ hok
    -- The block is still out of the chain, and nobody has written to it.
    have hout₁ : tob ∉ q₁.first := by
      rw [hwrote.first]
      exact hout
    obtain ⟨q₂, hrec, hkept⟩ := recycle_ok id datasize_pos hwrote.ok hout₁
      (by rw [hwrote.nextBlock]; exact hfresh)
    have hsame : window (q₁.mem tob) q.beginPos cend = window (q.mem tob) q.beginPos cend :=
      window_congr (fun p _ hp => hwrote.outside tob hout p (lt_of_lt_of_le hp hD))
    refine ⟨q₂, accepted, ?_, hkept.ok, ?_, hnil⟩
    · simp only [hputs, hrec, Option.map_some, hsame]
    · rw [hcontent, content_kept hkept, content_wrote zero_le hwrote, List.append_assoc]
  case isFalse hnot =>
  rw [not_or] at hnot
  have hadd : q.beginPos + (cend - q.beginPos) = cend := by omega
  have hlt : cend < ttyoutqDatasize := lt_of_le_of_ne hD hnot.1
  rw [hadd, if_pos hlt]
  obtain ⟨q₁, accepted, hputs, hwrote, hnil⟩ := puts_ok others _ (partial_ok h he hlt)
  refine ⟨q₁, accepted, ?_, hwrote.ok, ?_, hnil⟩
  · simp only [hputs, Option.map_some]
  · rw [content_split hfirst (le_of_lt hb) he hD, content_wrote he hwrote, List.append_assoc]
    rfl

/-- `ttyoutq_read_uio` delivers from the front of the queue, with the bytes written
    meanwhile behind what it held. -/
theorem readUioLoop_ok : ∀ (fuel : Nat) (q : Outq) (resid : Nat) (windows : List (List Put)),
    resid ≤ fuel → q.Ok ttyoutqDatasize → ∃ q' out accepted,
      readUioLoop fuel q resid windows = some (q', out, accepted) ∧ q'.Ok ttyoutqDatasize ∧
      q.content ++ accepted = out ++ q'.content ∧
      (windows = [] → accepted = [] ∧ out.length = min resid q.content.length) := by
  intro fuel
  induction fuel with
  | zero =>
    intro q resid windows hresid h
    obtain rfl : resid = 0 := by omega
    exact ⟨q, [], [], by rw [readUioLoop], h, by rw [List.append_nil, List.nil_append],
      fun _ => ⟨rfl, by rw [List.length_nil, Nat.zero_min]⟩⟩
  | succ fuel ih =>
    intro q resid windows hresid h
    cases resid with
    | zero =>
      exact ⟨q, [], [], by rw [readUioLoop], h, by rw [List.append_nil, List.nil_append],
        fun _ => ⟨rfl, by rw [List.length_nil, Nat.zero_min]⟩⟩
    | succ resid =>
      rw [readUioLoop]
      split
      case isTrue he =>
        refine ⟨q, [], [], rfl, h, by rw [List.append_nil, List.nil_append], fun _ => ⟨rfl, ?_⟩⟩
        rw [content_length, he, Nat.sub_self, Nat.min_zero, List.length_nil]
      case isFalse hne =>
      obtain ⟨hb, he, hD, hl⟩ := copyEnd_spec h hne resid
      generalize copyEnd q (resid + 1) = cend at hb he hD hl
      cases hfirst : q.first with
      | nil => exact absurd hfirst (first_ne_nil h hne)
      | cons tob rest =>
        obtain ⟨q₁, s₁, hturn, hok₁, hcontent₁, hnil₁⟩ :=
          readUioTurn_ok h hfirst hb he hD (windows.headD [])
        obtain ⟨q₂, out, s₂, hrun, hok₂, hcontent₂, hnil₂⟩ :=
          ih q₁ (resid + 1 - (cend - q.beginPos)) windows.tail (by omega) hok₁
        refine ⟨q₂, window (q.mem tob) q.beginPos cend ++ out, s₁ ++ s₂, ?_, hok₂, ?_, ?_⟩
        · simp only [hturn, hrun, Option.map_some]
        · rw [← List.append_assoc, hcontent₁, List.append_assoc, hcontent₂, List.append_assoc]
        rintro rfl
        obtain rfl := hnil₁ rfl
        obtain ⟨rfl, hout⟩ := hnil₂ rfl
        refine ⟨rfl, ?_⟩
        have hlen := congrArg List.length hcontent₁
        rw [List.append_nil, List.length_append, window_length] at hlen
        rw [List.length_append, window_length, hout]
        omega

/-! ## Sessions -/

/-- A queue, with what it accepted and delivered since the last flush. -/
structure Session where
  q : Outq
  accepted : List UInt8
  delivered : List UInt8

inductive OutOp where
  | setsize (size : Nat)
  | put (a : Put)
  | read (len : Nat)
  | readUio (resid : Nat) (windows : List (List Put))
  | flush

/-- The queue of a new terminal: all fields are zero. -/
def Session.init (data : Nat → Nat → UInt8) : Session :=
  { q := { first := [], last := none, beginPos := 0, endPos := 0, nblocks := 0, quota := 0,
           mem := data, nextBlock := 0 },
    accepted := [], delivered := [] }

def Session.exec (s : Session) : OutOp → Option Session
  | .setsize size => (ttyoutqSetsize s.q size).map (fun q => { s with q := q })
  | .put a => (a.run s.q).map (fun r => { s with q := r.1, accepted := s.accepted ++ r.2 })
  | .read len =>
    (ttyoutqRead s.q len).map (fun r => { s with q := r.1, delivered := s.delivered ++ r.2 })
  | .readUio resid windows => (ttyoutqReadUio s.q resid windows).map (fun r =>
    { q := r.1, accepted := s.accepted ++ r.2.2, delivered := s.delivered ++ r.2.1 })
  | .flush => some { q := ttyoutqFlush s.q, accepted := [], delivered := [] }

/-- The sizes fit in the range of the positions. The only caller,
    `tty_watermarks`, asks for at most 65536 bytes. -/
def OutOp.SizeOk : OutOp → Prop
  | .setsize size => Tty.SizeOk ttyoutqDatasize size
  | _ => True

/-- What was accepted is what was delivered and then what the queue holds. -/
structure Session.Ok (s : Session) : Prop where
  queue : s.q.Ok ttyoutqDatasize
  ledger : s.accepted = s.delivered ++ s.q.content

theorem zero_small : 0 * ttyoutqDatasize < uintSize := by decide

theorem Session.init_ok (data : Nat → Nat → UInt8) : (Session.init data).Ok where
  queue := ⟨List.nodup_nil, fun _ hb => absurd hb (List.not_mem_nil), rfl, le_rfl,
    datasize_pos, zero_le, fun hpos => absurd hpos (lt_irrefl 0), zero_small, zero_small⟩
  ledger := rfl

theorem Session.exec_ok (s : Session) (op : OutOp) (h : s.Ok) (hsize : op.SizeOk) :
    ∃ s', s.exec op = some s' ∧ s'.Ok := by
  cases op with
  | setsize size =>
    obtain ⟨q', hrun, hkept⟩ := setsize_ok id datasize_pos h.queue hsize
    exact ⟨{ s with q := q' }, by rw [exec, ttyoutqSetsize, hrun, Option.map_some],
      hkept.ok, by rw [content_kept hkept]; exact h.ledger⟩
  | put a =>
    obtain ⟨q', accepted, hrun, hwrote⟩ := a.run_ok h.queue
    refine ⟨_, by rw [exec, hrun, Option.map_some], hwrote.ok, ?_⟩
    dsimp only
    rw [content_wrote h.queue.order hwrote, ← List.append_assoc, ← h.ledger]
  | read len =>
    obtain ⟨q', out, hrun, hok, hcontent, -⟩ :=
      readLoop_ok len s.q len le_rfl h.queue
    refine ⟨_, by rw [exec, ttyoutqRead, hrun, Option.map_some], hok, ?_⟩
    dsimp only
    rw [List.append_assoc, ← hcontent]
    exact h.ledger
  | readUio resid windows =>
    obtain ⟨q', out, accepted, hrun, hok, hcontent, -⟩ :=
      readUioLoop_ok resid s.q resid windows le_rfl h.queue
    refine ⟨_, by rw [exec, ttyoutqReadUio, hrun, Option.map_some], hok, ?_⟩
    dsimp only
    rw [List.append_assoc, ← hcontent, ← List.append_assoc, ← h.ledger]
  | flush =>
    exact ⟨_, rfl, flush_ok h.queue, rfl⟩

/-- From any good queue the two readers deliver the same front of it and leave the
    same rest. -/
theorem readers_agree (h : q.Ok ttyoutqDatasize) (n : Nat) :
    ∃ q₁ q₂ : Outq, ttyoutqRead q n = some (q₁, q.content.take n) ∧
      ttyoutqReadUio q n [] = some (q₂, q.content.take n, []) ∧
      q₁.content = q.content.drop n ∧ q₂.content = q.content.drop n := by
  have hsplit : ∀ {out rest : List UInt8}, q.content = out ++ rest →
      out.length = min n q.content.length → out = q.content.take n ∧ rest = q.content.drop n := by
    intro out rest happ hlen
    have happ' : out ++ rest = q.content.take n ++ q.content.drop n := by
      rw [← happ, List.take_append_drop]
    exact List.append_inj happ' (by rw [hlen, List.length_take])
  obtain ⟨q₁, out₁, hrun₁, -, hcontent₁, hlen₁⟩ := readLoop_ok n q n le_rfl h
  obtain ⟨q₂, out₂, accepted, hrun₂, -, hcontent₂, hnil⟩ :=
    readUioLoop_ok n q n [] le_rfl h
  obtain ⟨rfl, hlen₂⟩ := hnil rfl
  rw [List.append_nil] at hcontent₂
  obtain ⟨rfl, hrest₁⟩ := hsplit hcontent₁ hlen₁
  obtain ⟨rfl, hrest₂⟩ := hsplit hcontent₂ hlen₂
  exact ⟨q₁, q₂, hrun₁, hrun₂, hrest₁, hrest₂⟩

/-- Every run of the output queue is completed. At its end the bytes delivered
    are a prefix of those accepted since the last flush, with the rest still in the
    queue, the write position is in the chain, and the two readers agree. -/
theorem outq_fifo (data : Nat → Nat → UInt8) (ops : List OutOp) (hsize : ∀ op ∈ ops, op.SizeOk) :
    ∃ s, runOps Session.exec (Session.init data) ops = some s ∧
      s.delivered <+: s.accepted ∧ s.accepted = s.delivered ++ s.q.content ∧
      s.q.endPos ≤ s.q.nblocks * ttyoutqDatasize ∧
      ∀ n, ∃ q₁ q₂ : Outq, ttyoutqRead s.q n = some (q₁, s.q.content.take n) ∧
        ttyoutqReadUio s.q n [] = some (q₂, s.q.content.take n, []) ∧
        q₁.content = s.q.content.drop n ∧ q₂.content = s.q.content.drop n := by
  obtain ⟨s, hrun, hok⟩ := runOps_progress_of Session.exec (fun _ op => op.SizeOk) Session.Ok
    Session.exec_ok ops (Session.init data) (Session.init_ok data)
    (everyStep_of_mem Session.exec OutOp.SizeOk ops (Session.init data) hsize)
  refine ⟨s, hrun, ⟨s.q.content, hok.ledger.symm⟩, hok.ledger, ?_, readers_agree hok.queue⟩
  rw [hok.queue.count]
  exact hok.queue.room

/-- A write in the window of a read, and a second read. -/
def outqOps : List OutOp :=
  [.setsize 300, .put (.write [1, 2, 3]), .readUio 2 [[.write [4]]], .put (.writeNofrag [5]), .read 9]

theorem outq_fifo_window : (∀ op ∈ outqOps, op.SizeOk) ∧
    ∃ s, runOps Session.exec (Session.init fun _ _ => 0) outqOps = some s ∧
      s.delivered <+: s.accepted := by
  have hsize : ∀ op ∈ outqOps, op.SizeOk := by
    simp [outqOps, OutOp.SizeOk, SizeOk, ttyoutqDatasize, uintSize]
  obtain ⟨s, hrun, hprefix, -⟩ := outq_fifo (fun _ _ => 0) outqOps hsize
  exact ⟨hsize, s, hrun, hprefix⟩

end FreeBSDKern.Tty
