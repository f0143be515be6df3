import FreeBSDKern.Lib.Run

/-!
# Direct Writes to a FIFO

A large write does not go through the buffer of the pipe. `pipe_direct_write` holds the
pages of the writer, sets `PIPE_DIRECTW` and sleeps, and readers copy from the pages. The
flag is cleared by the reader that takes the last byte, or by the writer when a signal
ends its sleep; then the writer lets the pages go. If it finds `PIPE_EOF` set, since the
last reader has gone, it lets the pages go and leaves the flag set. A FIFO can be opened
again before all writers are gone, and that clears `PIPE_EOF` (`stale_pages_are_read`).

A step of a thread goes from one place where it gives up the mutex of the pipe to the
next one. The pipe lock `PIPE_LOCKFL` is kept over such places. A thread that sleeps may
wake up at any time, so who is woken, and the flags that ask for it, are left out, and so
are `select`, access checks, times and all bytes but for their number. The pages in
`pipe_map.ms` are known by the number of the call that has held them. When a buffer is
resized, and to what, is up to the kernel memory that is left. A file is closed when no
call on it is in progress. Without open files the pipe is destroyed, and the next to open
the FIFO finds a new one.

## Main definitions

* `step`: What a thread does until it gives up the mutex.
* `Safe`: Nobody reads pages that have been let go.
* `leavesAtEof`: A writer leaves the flag set.

## Theorems

* `readLoop_good`, `directStart_good`, `directWait_good`: What is done with the pipe lock.
* `Inv.fifoOpen`, `Inv.fifoClose`: The pipe is not destroyed under a call.
* `Inv.step`: One step keeps the invariant.
* `direct_write_safe`: The pages are held in every run in which no writer does so.
-/

namespace FreeBSDKern.Pipes

open Lib Function

def pipeMindirect : Nat := 8192

def pipeBuf : Nat := 512

def pipeSize : Nat := 16384

def pageSize : Nat := 4096

/-- `struct pipe`, with `pipe_buffer` and `pipe_map`. -/
structure Pipe where
  eof : Bool
  directw : Bool
  /-- `PIPE_LOCKFL`, and the thread that has set it. -/
  lockfl : Option Nat
  bsize : Nat
  bcnt : Nat
  bin : Nat
  bout : Nat
  mcnt : Nat
  mpos : Nat
  npages : Nat
  ms : Nat

def newPipe : Pipe := ⟨false, false, none, pipeSize, 0, 0, 0, 0, 0, 0, 0⟩

/-- The pipe, which pages are held, and how many times some have been. -/
structure Mem where
  pipe : Pipe
  held : Nat → Bool
  holds : Nat

def Mem.pipelock (m : Mem) (t : Nat) : Mem := { m with pipe := { m.pipe with lockfl := some t } }

def Mem.pipeunlock (m : Mem) : Mem := { m with pipe := { m.pipe with lockfl := none } }

def Mem.setEof (m : Mem) (eof : Bool) : Mem := { m with pipe := { m.pipe with eof := eof } }

/-- The buffer gets a new size that its bytes fit in. -/
def pipespace (m : Mem) (size : Option Nat) : Mem :=
  match size with
  | some n =>
    if m.pipe.bcnt ≤ n then
      { m with pipe := { m.pipe with bsize := n, bin := m.pipe.bcnt, bout := 0 } }
    else m
  | none => m

/-! ## Reading -/

/-- Where a reader stands without the mutex. -/
inductive RLoc where
  | lockWait (first : Bool)
  | resizing
  | copy (size : Nat)
  | direct (size : Nat)
  | sleep

/-- With `uio_resid` and `nread`. -/
abbrev Reader := RLoc × Nat × Nat

/-- The loop of `pipe_read`, with the pipe lock. It goes on elsewhere or returns. -/
def readLoop (m : Mem) (nonblock : Bool) (resid nread : Nat) : Mem × Option Reader :=
  if resid = 0 then (m.pipeunlock, none)
  else if m.pipe.bcnt > 0 then
    (m, some (.copy (min (m.pipe.bsize - m.pipe.bout) (min m.pipe.bcnt resid)), resid, nread))
  else if m.pipe.mcnt ≠ 0 ∧ m.pipe.directw = true then
    (m, some (.direct (min m.pipe.mcnt resid), resid, nread))
  else if m.pipe.eof then (m.pipeunlock, none)
  else if nread > 0 then (m.pipeunlock, none)
  else if nonblock then (m.pipeunlock, none)
  else (m.pipeunlock, some (.sleep, resid, nread))

def pipeRead (m : Mem) (t : Nat) (nonblock : Bool) (r : Reader) (error : Bool)
    (size : Option Nat) : Mem × Option Reader :=
  match r with
  | (.lockWait first, resid, nread) =>
    if error then (m, none)
    else if m.pipe.lockfl ≠ none then (m, some r)
    else if first ∧ size ≠ none ∧ m.pipe.directw = false then
      (m.pipelock t, some (.resizing, resid, nread))
    else readLoop (m.pipelock t) nonblock resid nread
  | (.resizing, resid, nread) => readLoop (pipespace m size) nonblock resid nread
  | (.copy n, resid, nread) =>
    if error then (m.pipeunlock, none)
    else
      let out := if m.pipe.bout + n ≥ m.pipe.bsize then 0 else m.pipe.bout + n
      let p : Pipe := { m.pipe with bout := out, bcnt := m.pipe.bcnt - n }
      let p : Pipe := if p.bcnt = 0 then { p with bin := 0, bout := 0 } else p
      readLoop { m with pipe := p } nonblock (resid - n) (nread + n)
  | (.direct n, resid, nread) =>
    if error then (m.pipeunlock, none)
    else
      let p : Pipe := { m.pipe with mpos := m.pipe.mpos + n, mcnt := m.pipe.mcnt - n }
      let p : Pipe := if p.mcnt = 0 then { p with directw := false } else p
      readLoop { m with pipe := p } nonblock (resid - n) (nread + n)
  | (.sleep, resid, nread) =>
    if error then (m, none) else (m, some (.lockWait false, resid, nread))

/-! ## Writing -/

/-- Where a writer does. Those that begin with `d` are in `pipe_direct_write`. -/
inductive WLoc where
  | entry
  | resizing
  | top
  | copy (size : Nat)
  | sleep
  | dLock
  | dSleep
  | dBuild
  | dWait (ms : Nat)
  | dRelock (ms : Nat) (error : Bool)
  | dClone (error : Bool)
  | last

/-- With the lengths in `uio_iov`. -/
abbrev Writer := WLoc × List Nat

/-- The rest of the data after some of it has been moved. -/
def uiomove : List Nat → Nat → List Nat
  | iov, 0 => iov
  | [], _ => []
  | l :: iov, n => if n ≤ l then (l - n) :: iov else uiomove iov (n - l)

/-- `pipe_destroy_write_buffer`. -/
def destroyWriteBuffer (m : Mem) : Mem :=
  { m with
    held := if m.pipe.npages = 0 then m.held else update m.held m.pipe.ms false
    pipe := { m.pipe with npages := 0 } }

/-- The head of the loop of `pipe_write`. -/
def writeNext (m : Mem) (iov : List Nat) : Mem × Option Writer :=
  (m, some (if iov.sum = 0 then .last else .top, iov))

/-- The way out of `pipe_direct_write` into that loop. -/
def directReturn (m : Mem) (iov : List Nat) (error : Bool) : Mem × Option Writer :=
  if error then (m, some (.last, iov)) else writeNext m iov

/-- `pipe_direct_write` with the pipe lock, up to where the pages are held. -/
def directStart (m : Mem) (iov : List Nat) : Mem × Option Writer :=
  if m.pipe.eof then (m.pipeunlock, some (.last, iov))
  else if m.pipe.directw then (m.pipeunlock, some (.dSleep, iov))
  else
    let m : Mem := { m with pipe := { m.pipe with mcnt := 0 } }
    if m.pipe.bcnt > 0 then (m.pipeunlock, some (.dSleep, iov))
    else ({ m with pipe := { m.pipe with directw := true } }, some (.dBuild, iov))

/-- The loop that waits for the readers, with the pipe lock. -/
def directWait (m : Mem) (ms : Nat) (iov : List Nat) (error : Bool) : Mem × Option Writer :=
  if error = false ∧ m.pipe.directw = true then
    if m.pipe.eof then ((destroyWriteBuffer m).pipeunlock, some (.last, iov))
    else (m.pipeunlock, some (.dWait ms, iov))
  else if m.pipe.directw then
    ({ m with pipe :=
      { m.pipe with directw := false, bin := m.pipe.mcnt, bout := 0, bcnt := m.pipe.mcnt } },
      some (.dClone (error || m.pipe.eof), iov))
  else directReturn (destroyWriteBuffer m).pipeunlock iov (error || m.pipe.eof)

/-- `pipe_build_write_buffer` for data at offset `pos` of a page. -/
def buildWriteBuffer (m : Mem) (pos size : Nat) : Mem :=
  { pipe :=
      { m.pipe with
        mcnt := size, mpos := pos, npages := (pos + size + pageSize - 1) / pageSize, ms := m.holds }
    held := update m.held m.holds true
    holds := m.holds + 1 }

/-- What it leaves of the data. -/
def iovAfter : List Nat → Nat → List Nat
  | [], _ => []
  | l :: iov, n => if l - n = 0 then iov else (l - n) :: iov

/-- The data comes from user space. -/
def pipeWrite (m : Mem) (t : Nat) (nonblock : Bool) (w : Writer) (origResid : Nat) (error : Bool)
    (size : Option Nat) : Mem × Option Writer :=
  match w with
  | (.entry, iov) =>
    if error then (m, none)
    else if m.pipe.lockfl ≠ none then (m, some w)
    else if m.pipe.eof then (m, none)
    else if size ≠ none ∧ m.pipe.directw = false then (m.pipelock t, some (.resizing, iov))
    else if m.pipe.bsize = 0 then (m, none)
    else writeNext m iov
  | (.resizing, iov) =>
    let m := (pipespace m size).pipeunlock
    if m.pipe.bsize = 0 then (m, none) else writeNext m iov
  | (.top, iov) =>
    if m.pipe.lockfl ≠ none then (m, some w)
    else if m.pipe.eof then (m, some (.last, iov))
    else if iov.headD 0 ≥ pipeMindirect ∧ m.pipe.bsize ≥ pipeMindirect ∧ nonblock = false then
      directStart (m.pipelock t) iov
    else if m.pipe.directw then (m, some (.sleep, iov))
    else
      let space := m.pipe.bsize - m.pipe.bcnt
      let space := if space < iov.sum ∧ origResid ≤ pipeBuf then 0 else space
      if space > 0 then (m.pipelock t, some (.copy (min space iov.sum), iov))
      else if nonblock then (m, some (.last, iov))
      else (m, some (.sleep, iov))
  | (.copy n, iov) =>
    if error then (m.pipeunlock, some (.last, iov))
    else
      let p : Pipe :=
        { m.pipe with bin := (m.pipe.bin + n) % m.pipe.bsize, bcnt := m.pipe.bcnt + n }
      writeNext { m with pipe := p }.pipeunlock (uiomove iov n)
  | (.sleep, iov) => if error then (m, some (.last, iov)) else writeNext m iov
  | (.dLock, iov) =>
    if error then (m, some (.last, iov))
    else if m.pipe.lockfl ≠ none then (m, some w)
    else directStart (m.pipelock t) iov
  | (.dSleep, iov) => (m, some (if error then .last else .dLock, iov))
  | (.dBuild, iov) =>
    if error then
      ({ m with pipe := { m.pipe with directw := false } }.pipeunlock, some (.last, iov))
    else
      let n := min (iov.headD 0) m.pipe.bsize
      directWait (buildWriteBuffer m (size.getD 0 % pageSize) n) m.holds (iovAfter iov n) false
  | (.dWait ms, iov) => (m, some (.dRelock ms error, iov))
  | (.dRelock ms error, iov) =>
    if m.pipe.lockfl ≠ none then (m, some w) else directWait (m.pipelock t) ms iov error
  | (.dClone error, iov) => directReturn (destroyWriteBuffer m).pipeunlock iov error
  | (.last, _) => if m.pipe.lockfl ≠ none then (m, some w) else (m, none)

/-! ## The FIFO -/

structure Mode where
  fread : Bool
  fwrite : Bool
  nonblock : Bool

/-- A file, the thread that still opens it, and the calls in progress on it. -/
structure File where
  mode : Mode
  opener : Option Nat
  calls : List Nat

inductive Loc where
  | idle
  | openRead (file : Nat) (mode : Mode) (gen : Nat)
  | openWrite (file : Nat) (mode : Mode) (gen : Nat)
  | read (file : Nat) (r : Reader)
  | write (file : Nat) (w : Writer) (origResid : Nat)

/-- `struct fifoinfo` with the pipe, and who uses it. -/
structure State where
  mem : Mem
  readers : Nat
  writers : Nat
  rgen : Nat
  wgen : Nat
  files : Nat → Option File
  threads : Nat → Loc

def start : State :=
  ⟨⟨newPipe, fun _ => false, 0⟩, 0, 0, 0, 0, fun _ => none, fun _ => .idle⟩

/-- The file is as said, and so is where the thread stands. -/
def State.put (s : State) (t : Nat) (loc : Loc) (file : Nat) (x : Option File) : State :=
  { s with
    threads := update s.threads t loc, files := update s.files file x }

def fifoCleanup (s : State) : State :=
  if s.readers = 0 ∧ s.writers = 0 then { s with mem := { s.mem with pipe := newPipe } } else s

def addReader (s : State) (mode : Mode) : State :=
  if mode.fread then
    let s : State := { s with readers := s.readers + 1, rgen := s.rgen + 1 }
    if s.readers = 1 then { s with mem := s.mem.setEof false } else s
  else s

def addWriter (s : State) (mode : Mode) : State :=
  if mode.fwrite then
    let s : State := { s with writers := s.writers + 1, wgen := s.wgen + 1 }
    if s.writers = 1 then { s with mem := s.mem.setEof false } else s
  else s

def dropReader (s : State) (mode : Mode) : State :=
  if mode.fread then
    let s : State := { s with readers := s.readers - 1 }
    if s.readers = 0 then { s with mem := s.mem.setEof true } else s
  else s

def dropWriter (s : State) (mode : Mode) : State :=
  if mode.fwrite then
    let s : State := { s with writers := s.writers - 1 }
    if s.writers = 0 then { s with mem := s.mem.setEof true } else s
  else s

/-- The part of `fifo_open` that waits for a reader, and the file is open. -/
def openWriter (s : State) (t file : Nat) (mode : Mode) : State :=
  if mode.fwrite ∧ s.readers = 0 then
    s.put t (.openWrite file mode s.rgen) file (some ⟨mode, some t, []⟩)
  else s.put t .idle file (some ⟨mode, none, []⟩)

def fifoOpen (s : State) (t file : Nat) (mode : Mode) : State :=
  let s := addReader s mode
  if mode.fwrite ∧ mode.nonblock ∧ s.readers = 0 then
    if s.writers = 0 then fifoCleanup s else s
  else
    let s := addWriter s mode
    if mode.nonblock then s.put t .idle file (some ⟨mode, none, []⟩)
    else if mode.fread ∧ s.writers = 0 then
      s.put t (.openRead file mode s.wgen) file (some ⟨mode, some t, []⟩)
    else openWriter s t file mode

/-- A thread that waits for a writer wakes up. -/
def openReadWoken (s : State) (t file : Nat) (mode : Mode) (gen : Nat) (error : Bool) : State :=
  if error ∧ gen = s.wgen then
    let s := (dropReader s mode).put t .idle file none
    if s.readers = 0 then fifoCleanup s else s
  else openWriter s t file mode

def openWriteWoken (s : State) (t file : Nat) (mode : Mode) (gen : Nat) (error : Bool) : State :=
  if error ∧ gen = s.rgen then
    let s := (dropWriter s mode).put t .idle file none
    if s.writers = 0 then fifoCleanup s else s
  else s.put t .idle file (some ⟨mode, none, []⟩)

def fifoClose (s : State) (t file : Nat) (mode : Mode) : State :=
  fifoCleanup ((dropWriter (dropReader s mode) mode).put t .idle file none)

/-! ## Steps -/

/-- What a thread is asked to do. One in the middle of a call goes on, with an error if
    it is a signal or a fault, and with the new size of a buffer or the place of the data
    in its page. -/
inductive Op where
  | openFile (file : Nat) (mode : Mode)
  | close (file : Nat)
  | read (file resid : Nat)
  | write (file : Nat) (iov : List Nat)
  | go (error : Bool) (size : Option Nat)

/-- A call goes on at `loc`. -/
def State.goOn (s : State) (m : Mem) (t : Nat) (loc : Loc) : State :=
  { s with mem := m, threads := update s.threads t loc }

/-- A call on a file returns. -/
def State.leave (s : State) (m : Mem) (t file : Nat) : State :=
  State.put { s with mem := m } t .idle file
    ((s.files file).map fun x => { x with calls := x.calls.filter (· ≠ t) })

/-- One step of thread `t`. What it cannot do where it stands changes nothing. -/
def step (s : State) (op : Nat × Op) : State :=
  let t := op.1
  match s.threads t, op.2 with
  | .idle, .openFile file mode =>
    match s.files file with
    | none => fifoOpen s t file mode
    | some _ => s
  | .idle, .close file =>
    match s.files file with
    | some ⟨mode, none, []⟩ => fifoClose s t file mode
    | _ => s
  | .idle, .read file resid =>
    match s.files file with
    | some ⟨mode, none, calls⟩ =>
      if mode.fread then
        s.put t (.read file (.lockWait true, resid, 0)) file (some ⟨mode, none, t :: calls⟩)
      else s
    | _ => s
  | .idle, .write file iov =>
    match s.files file with
    | some ⟨mode, none, calls⟩ =>
      if mode.fwrite then
        s.put t (.write file (.entry, iov) iov.sum) file (some ⟨mode, none, t :: calls⟩)
      else s
    | _ => s
  | .openRead file mode gen, .go error _ => openReadWoken s t file mode gen error
  | .openWrite file mode gen, .go error _ => openWriteWoken s t file mode gen error
  | .read file r, .go error size =>
    match s.files file with
    | some x =>
      match pipeRead s.mem t x.mode.nonblock r error size with
      | (m, some r) => s.goOn m t (.read file r)
      | (m, none) => s.leave m t file
    | none => s
  | .write file w orig, .go error size =>
    match s.files file with
    | some x =>
      match pipeWrite s.mem t x.mode.nonblock w orig error size with
      | (m, some w) => s.goOn m t (.write file w orig)
      | (m, none) => s.leave m t file
    | none => s
  | _, _ => s

/-! ## The pages -/

/-- Whether the thread has set `PIPE_LOCKFL`. -/
def owns : Loc → Bool
  | .read _ (.resizing, _) | .read _ (.copy _, _) | .read _ (.direct _, _) => true
  | .write _ (.resizing, _) _ | .write _ (.copy _, _) _ | .write _ (.dBuild, _) _
  | .write _ (.dClone _, _) _ => true
  | _ => false

/-- A reader in the direct copy of this many bytes. -/
def copies : Loc → Option Nat
  | .read _ (.direct n, _) => some n
  | _ => none

/-- A writer that waits for `PIPE_DIRECTW` to be cleared, and its pages. -/
def waits : Loc → Option Nat
  | .write _ (.dWait ms, _) _ | .write _ (.dRelock ms _, _) _ => some ms
  | _ => none

/-- The pages for `cnt` bytes are held by a writer that waits. -/
def Holds (m : Mem) (threads : Nat → Loc) (cnt : Nat) : Prop :=
  m.pipe.mpos + cnt ≤ m.pipe.npages * pageSize ∧ m.held m.pipe.ms = true ∧
    ∃ w, waits (threads w) = some m.pipe.ms

def Safe (s : State) : Prop :=
  (∀ t n, copies (s.threads t) = some n → Holds s.mem s.threads n) ∧
    (s.mem.pipe.directw = true → s.mem.pipe.lockfl = none →
      ∃ w, (waits (s.threads w)).isSome = true)

/-- A writer finds `PIPE_EOF` set together with `PIPE_DIRECTW` in its loop. -/
def leavesAtEof (s : State) (op : Nat × Op) : Bool :=
  match s.threads op.1, op.2 with
  | .write _ (.dBuild, _) _, .go false _ => s.mem.pipe.directw && s.mem.pipe.eof
  | .write _ (.dRelock _ false, _) _, .go _ _ =>
    s.mem.pipe.lockfl.isNone && s.mem.pipe.directw && s.mem.pipe.eof
  | _, _ => false

def builds : Loc → Bool
  | .write _ (.dBuild, _) _ => true
  | _ => false

/-- What the pipe is like for a thread that stands there. -/
def Placed (p : Pipe) (loc : Loc) : Prop :=
  (∀ n ∈ copies loc, p.directw = true ∧ n ≤ p.mcnt) ∧
    (∀ file error iov orig, loc = .write file (.dClone error, iov) orig → p.directw = false)

structure Good (m : Mem) (threads : Nat → Loc) : Prop where
  lock : ∀ t, owns (threads t) = true ↔ m.pipe.lockfl = some t
  placed : ∀ t, Placed m.pipe (threads t)
  pages : m.pipe.directw = true → (∃ w, builds (threads w) = true) ∨ Holds m threads m.pipe.mcnt

/-- The same for the others while thread `t` has the pipe lock. -/
structure Half (m : Mem) (threads : Nat → Loc) (t : Nat) : Prop where
  others : ∀ u ≠ t, owns (threads u) = false
  pages : m.pipe.directw = true → Holds m (update threads t .idle) m.pipe.mcnt

variable {m : Mem} {threads : Nat → Loc} {t : Nat} {loc : Loc}

theorem of_copies {n : Nat} (h : copies loc = some n) : owns loc = true ∧ builds loc = false := by
  unfold copies at h
  split at h
  · exact ⟨rfl, rfl⟩
  · simp at h

theorem placed_of_not_owns (p : Pipe) (h : owns loc = false) : Placed p loc := by
  refine ⟨fun n hn => ?_, fun file error iov orig he => ?_⟩
  · simp [(of_copies hn).1] at h
  · subst he
    simp [owns] at h

theorem owns_of_builds (h : builds loc = true) : owns loc = true := by
  unfold builds at h
  split at h
  · rfl
  · simp at h

theorem waits_update {u : Nat} (hne : u ≠ t) :
    waits (update threads t loc u) = waits (threads u) := by
  rw [update_of_ne hne]

theorem Holds.put {cnt : Nat} (h : Holds m (update threads t .idle) cnt) (loc : Loc) :
    Holds m (update threads t loc) cnt := by
  obtain ⟨hpos, hheld, w, hw⟩ := h
  refine ⟨hpos, hheld, w, ?_⟩
  rcases eq_or_ne w t with rfl | hne
  · simp [waits] at hw
  · rwa [waits_update hne] at hw ⊢

/-- Without the lock nobody builds, so a thread that does not wait leaves the pages held. -/
theorem Good.half (h : Good m threads) (hl : m.pipe.lockfl = none ∨ m.pipe.lockfl = some t)
    (hb : builds (threads t) = false) (hw : waits (threads t) = none) : Half m threads t := by
  have others : ∀ u ≠ t, owns (threads u) = false := by
    intro u hu
    have := h.lock u
    rcases hl with hl | hl <;> simp [hl, hu.symm] at this <;> exact this
  refine ⟨others, fun hd => ?_⟩
  rcases h.pages hd with ⟨w, hbw⟩ | ⟨hpos, hheld, w, hww⟩
  · rcases eq_or_ne w t with rfl | hne
    · simp [hb] at hbw
    · have := owns_of_builds hbw
      simp [others w hne] at this
  refine ⟨hpos, hheld, w, ?_⟩
  rcases eq_or_ne w t with rfl | hne
  · simp [hw] at hww
  · rwa [waits_update hne]

section

variable (h : Half m threads t)
include h

theorem Half.pipelock : Half (m.pipelock t) threads t := ⟨h.others, h.pages⟩

/-- What thread `t` does to the pipe leaves the rest as it was. -/
theorem Half.keep {m' : Mem} (hd : m'.pipe.directw = true → m.pipe.directw = true)
    (hpos : m'.pipe.mpos + m'.pipe.mcnt = m.pipe.mpos + m.pipe.mcnt)
    (hms : m'.pipe.ms = m.pipe.ms) (hn : m'.pipe.npages = m.pipe.npages)
    (hh : m'.held = m.held) : Half m' threads t := by
  refine ⟨h.others, fun hd' => ?_⟩
  obtain ⟨hle, hheld, w, hw⟩ := h.pages (hd hd')
  exact ⟨by rw [hpos, hn]; exact hle, by rw [hh, hms]; exact hheld, w, by rw [hms]; exact hw⟩

theorem Half.of_not_directw {m' : Mem} (hd : m'.pipe.directw = false) :
    Half m' threads t :=
  ⟨h.others, fun hd' => by simp [hd] at hd'⟩

/-- Thread `t` stops at `loc`, with the lock or without it. -/
theorem Half.put (hl : m.pipe.lockfl = if owns loc = true then some t else none) (hp : Placed m.pipe loc) :
    Good m (update threads t loc) := by
  refine ⟨fun u => ?_, fun u => ?_, fun hd => Or.inr ((h.pages hd).put loc)⟩
  · rcases eq_or_ne u t with rfl | hne
    · simp [hl]
    · rw [update_of_ne hne, h.others u hne, hl]
      split <;> simp [hne.symm]
  rcases eq_or_ne u t with rfl | hne
  · rwa [update_self]
  · rw [update_of_ne hne]
    exact placed_of_not_owns _ (h.others u hne)

theorem Half.unlock (ho : owns loc = false) :
    Good m.pipeunlock (update threads t loc) :=
  have half : Half m.pipeunlock threads t := ⟨h.others, h.pages⟩
  half.put (by simp [ho, Mem.pipeunlock]) (placed_of_not_owns _ ho)

end

/-- A thread goes on without the lock. -/
theorem Good.move (h : Good m threads) (ho : owns (threads t) = false) (ho' : owns loc = false)
    (hw : waits loc = waits (threads t)) : Good m (update threads t loc) := by
  refine ⟨fun u => ?_, fun u => ?_, fun hd => ?_⟩
  · rcases eq_or_ne u t with rfl | hne
    · rw [update_self, ho', ← h.lock u, ho]
    · rw [update_of_ne hne]
      exact h.lock u
  · rcases eq_or_ne u t with rfl | hne
    · rw [update_self]
      exact placed_of_not_owns _ ho'
    · rw [update_of_ne hne]
      exact h.placed u
  rcases h.pages hd with ⟨w, hb⟩ | ⟨hpos, hheld, w, hww⟩
  · have hne : w ≠ t := fun hwt => by simp [hwt ▸ owns_of_builds hb] at ho
    exact Or.inl ⟨w, by rwa [update_of_ne hne]⟩
  refine Or.inr ⟨hpos, hheld, w, ?_⟩
  rcases eq_or_ne w t with rfl | hne
  · rwa [update_self, hw]
  · rwa [waits_update hne]

/-! ## What is done with the lock -/

/-- Where a reader stands after a step. -/
def readerAt (file : Nat) : Option Reader → Loc
  | some r => .read file r
  | none => .idle

def writerAt (file orig : Nat) : Option Writer → Loc
  | some w => .write file w orig
  | none => .idle

theorem readLoop_good (h : Half m threads t) (hl : m.pipe.lockfl = some t)
    (file : Nat) (nonblock : Bool) (resid nread : Nat) : Good (readLoop m nonblock resid nread).1
      (update threads t (readerAt file (readLoop m nonblock resid nread).2)) := by
  unfold readLoop
  split_ifs with h1 h2 h3
  · exact h.unlock rfl
  · exact h.put (by simp [hl, readerAt, owns]) ⟨by simp [readerAt, copies], by simp [readerAt]⟩
  · refine h.put (by simp [hl, readerAt, owns]) ⟨fun n hn => ?_, by simp [readerAt]⟩
    simp only [readerAt, copies, Option.mem_def, Option.some.injEq] at hn
    exact ⟨h3.2, by omega⟩
  all_goals exact h.unlock rfl

theorem pipespace_half (h : Half m threads t) (size : Option Nat) :
    Half (pipespace m size) threads t := by
  unfold pipespace
  split
  · split
    · exact h.keep (fun hd => hd) rfl rfl rfl rfl
    · exact h
  · exact h

theorem pipespace_lockfl (m : Mem) (size : Option Nat) :
    (pipespace m size).pipe.lockfl = m.pipe.lockfl := by
  unfold pipespace
  split
  · split <;> rfl
  · rfl

theorem pipeRead_good (h : Good m threads) {file : Nat} {r : Reader}
    (ht : threads t = .read file r) (nonblock error : Bool) (size : Option Nat) :
    Good (pipeRead m t nonblock r error size).1
      (update threads t (readerAt file (pipeRead m t nonblock r error size).2)) := by
  have half : ∀ (_ : m.pipe.lockfl = none ∨ m.pipe.lockfl = some t), Half m threads t :=
    fun hl => h.half hl (by rw [ht]; rfl) (by rw [ht]; rfl)
  have mine : owns (threads t) = true → m.pipe.lockfl = some t := (h.lock t).1
  have move : ∀ o, owns (threads t) = false → owns (readerAt file o) = false →
      Good m (update threads t (readerAt file o)) :=
    fun o ho ho' => h.move ho ho' (by rw [ht]; cases o <;> rfl)
  rcases r with ⟨place, resid, nread⟩
  unfold pipeRead
  cases place with
  | lockWait first =>
    have ho : owns (threads t) = false := by rw [ht]; rfl
    simp only
    split_ifs with h1 h2 h3
    · exact move _ ho rfl
    · exact move _ ho rfl
    · have hl := not_not.1 h2
      exact (half (Or.inl hl)).pipelock.put rfl ⟨by simp [readerAt, copies], by simp [readerAt]⟩
    · have hl := not_not.1 h2
      exact readLoop_good (half (Or.inl hl)).pipelock rfl _ _ _ _
  | resizing =>
    have hl := mine (by rw [ht]; rfl)
    exact readLoop_good (pipespace_half (half (Or.inr hl)) size)
      ((pipespace_lockfl m size).trans hl) _ _ _ _
  | copy n =>
    have hl := mine (by rw [ht]; rfl)
    simp only
    split_ifs with h1
    · exact (half (Or.inr hl)).unlock rfl
    all_goals
      refine readLoop_good ?_ ?_ _ _ _ _
      · exact (half (Or.inr hl)).keep (fun hd => hd) rfl rfl rfl rfl
      · exact hl
  | direct n =>
    have hl := mine (by rw [ht]; rfl)
    -- the bytes that are taken are in the pages
    have hn : n ≤ m.pipe.mcnt := ((h.placed t).1 n (by rw [ht]; rfl)).2
    simp only
    split_ifs with h1 h2
    · exact (half (Or.inr hl)).unlock rfl
    · refine readLoop_good ?_ ?_ _ _ _ _
      · exact (half (Or.inr hl)).of_not_directw rfl
      · exact hl
    refine readLoop_good ?_ ?_ _ _ _ _
    · refine (half (Or.inr hl)).keep (fun hd => hd) ?_ rfl rfl rfl
      change m.pipe.mpos + n + (m.pipe.mcnt - n) = _
      omega
    · exact hl
  | sleep =>
    have ho : owns (threads t) = false := by rw [ht]; rfl
    simp only
    split_ifs
    · exact move _ ho rfl
    · exact move _ ho rfl

section

variable (h : ∀ loc, owns loc = false → waits loc = none → Good m (update threads t loc)) (file orig : Nat)
include h file orig

theorem writeNext_good {iov : List Nat} : Good (writeNext m iov).1
      (update threads t (writerAt file orig (writeNext m iov).2)) := by
  unfold writeNext
  split_ifs
  · exact h _ rfl rfl
  · exact h _ rfl rfl

theorem directReturn_good {iov : List Nat} {error : Bool} : Good (directReturn m iov error).1
      (update threads t (writerAt file orig (directReturn m iov error).2)) := by
  unfold directReturn
  split_ifs
  · exact h _ rfl rfl
  · exact writeNext_good h file orig

end

theorem directStart_good (h : Half m threads t) (hl : m.pipe.lockfl = some t) (iov : List Nat)
    (file orig : Nat) : Good (directStart m iov).1
      (update threads t (writerAt file orig (directStart m iov).2)) := by
  unfold directStart
  dsimp only
  split_ifs with h1 h2 h3
  · exact h.unlock rfl
  · exact h.unlock rfl
  · exact Half.unlock (h.of_not_directw (by simpa using h2)) rfl
  have ready : Half { m with pipe := { m.pipe with mcnt := 0 } } threads t :=
    h.of_not_directw (by simpa using h2)
  have g : Good _ (update threads t (.write file (.dBuild, iov) orig)) :=
    ready.put hl ⟨by simp [copies], by simp⟩
  -- only now the flag is set, by a writer that builds
  refine ⟨g.lock, fun u => ?_, fun _ => Or.inl ⟨t, by simp [builds, writerAt]⟩⟩
  rcases eq_or_ne u t with rfl | hne
  · exact ⟨by simp [copies, writerAt], by simp [writerAt]⟩
  · rw [update_of_ne hne]
    exact placed_of_not_owns _ (h.others u hne)

/-- In the loop the pages are those of this writer or of another one that waits. -/
theorem directWait_good {ms : Nat} {error : Bool}
    (others : ∀ u ≠ t, owns (threads u) = false)
    (hpages : m.pipe.directw = true →
      ∀ file orig iov, Holds m (update threads t (.write file (.dWait ms, iov) orig))
        m.pipe.mcnt)
    (heof : ¬(error = false ∧ m.pipe.directw = true ∧ m.pipe.eof = true))
    (hl : m.pipe.lockfl = some t) (iov : List Nat) (file orig : Nat) :
    Good (directWait m ms iov error).1
      (update threads t (writerAt file orig (directWait m ms iov error).2)) := by
  have half : ∀ m' : Mem, m'.pipe.directw = false → Half m' threads t :=
    fun m' hd => ⟨others, fun hd' => by simp [hd] at hd'⟩
  unfold directWait
  split_ifs with h1 h2 h3
  · exact absurd ⟨h1.1, h1.2, h2⟩ heof
  · refine ⟨fun u => ?_, fun u => ?_, fun _ => Or.inr (hpages h1.2 _ _ _)⟩
    · rcases eq_or_ne u t with rfl | hne
      · simp [writerAt, owns, Mem.pipeunlock]
      · simp [update_of_ne hne, others u hne, Mem.pipeunlock]
    refine placed_of_not_owns _ ?_
    rcases eq_or_ne u t with rfl | hne
    · simp [writerAt, owns]
    · rw [update_of_ne hne, others u hne]
  · exact (half _ rfl).put hl ⟨by simp [writerAt, copies], fun _ _ _ _ _ => rfl⟩
  · exact directReturn_good (fun loc ho _ =>
      (half (destroyWriteBuffer m) (Bool.not_eq_true _ ▸ h3)).unlock ho) file orig

theorem Good.others (h : Good m threads) (hl : m.pipe.lockfl = none ∨ m.pipe.lockfl = some t) :
    ∀ u ≠ t, owns (threads u) = false := by
  intro u hu
  have := h.lock u
  rcases hl with hl | hl <;> simp [hl, hu.symm] at this <;> exact this

variable {s : State} {x : File} {r w : Nat}

theorem pipeWrite_good (h : Good s.mem s.threads) {file orig : Nat} {w : Writer}
    (ht : s.threads t = .write file w orig) (nonblock error : Bool) (size : Option Nat)
    (heof : leavesAtEof s (t, .go error size) = false) :
    Good (pipeWrite s.mem t nonblock w orig error size).1
      (update s.threads t
        (writerAt file orig (pipeWrite s.mem t nonblock w orig error size).2)) := by
  have mine : owns (s.threads t) = true → s.mem.pipe.lockfl = some t := (h.lock t).1
  have move : owns (s.threads t) = false → waits (s.threads t) = none → ∀ loc, owns loc = false →
      waits loc = none → Good s.mem (update s.threads t loc) :=
    fun ho hw loc ho' hw' => h.move ho ho' (hw'.trans hw.symm)
  have half : s.mem.pipe.lockfl = none ∨ s.mem.pipe.lockfl = some t →
      builds (s.threads t) = false → waits (s.threads t) = none → Half s.mem s.threads t := h.half
  rcases w with ⟨place, iov⟩
  cases place
  all_goals
    simp only [pipeWrite]
    simp only [leavesAtEof, ht] at heof
    simp only [ht, owns, builds, waits] at mine move half
    simp only [true_implies, reduceCtorEq, false_implies] at mine move half
  case entry =>
    split_ifs with h1 h2 h3 h4
    · exact move _ rfl rfl
    · exact move _ rfl rfl
    · exact move _ rfl rfl
    · refine (half (Or.inl (not_not.1 h2))).pipelock.put rfl ⟨?_, ?_⟩
      · simp [writerAt, copies]
      · simp [writerAt]
    · exact move _ rfl rfl
    · exact writeNext_good move file orig
  case resizing =>
    have hs := pipespace_half (half (Or.inr mine)) size
    split_ifs
    · exact hs.unlock rfl
    · exact writeNext_good (fun loc ho _ => hs.unlock ho) file orig
  case top =>
    have locked := fun h2 => (half (Or.inl (not_not.1 h2))).pipelock
    split_ifs with h1 h2 h3 h4 h5
    · exact move _ rfl rfl
    · exact move _ rfl rfl
    · exact directStart_good (locked h1) rfl iov file orig
    · exact move _ rfl rfl
    all_goals first
      | exact move _ rfl rfl
      | exact (locked h1).put rfl ⟨by simp [writerAt, copies], by simp [writerAt]⟩
  case copy n =>
    have hs := half (Or.inr mine)
    split_ifs
    · exact hs.unlock rfl
    · refine writeNext_good (fun loc ho _ => Half.unlock ?_ ho) file orig
      exact hs.keep (fun hd => hd) rfl rfl rfl rfl
  case sleep =>
    split_ifs
    · exact move _ rfl rfl
    · exact writeNext_good move file orig
  case dLock =>
    split_ifs with h1 h2
    · exact move _ rfl rfl
    · exact move _ rfl rfl
    · exact directStart_good (half (Or.inl (not_not.1 h2))).pipelock rfl iov file orig
  case dSleep =>
    cases error
    · exact move _ rfl rfl
    · exact move _ rfl rfl
  case dBuild =>
    have others := h.others (Or.inr mine)
    cases error with
    | true => exact Half.unlock ⟨others, fun hd => by simp at hd⟩ rfl
    | false =>
      refine directWait_good others (fun _ f o v => ⟨?_, ?_, t, ?_⟩) ?_ ?_ _ file orig
      · simp only [buildWriteBuffer, pageSize]
        omega
      · simp [buildWriteBuffer]
      · simp [buildWriteBuffer, waits]
      · simpa [buildWriteBuffer] using heof
      · exact mine
  case dWait ms =>
    exact h.move (by rw [ht]; rfl) rfl (by rw [ht]; rfl)
  case dRelock ms failed =>
    split_ifs with h1
    · exact h.move (by rw [ht]; rfl) rfl (by rw [ht]; rfl)
    have hl := not_not.1 h1
    have others := h.others (t := t) (Or.inl hl)
    refine directWait_good others (fun hd f o v => ?_) ?_ rfl iov file orig
    · rcases h.pages hd with ⟨u, hb⟩ | ⟨hpos, hheld, u, hu⟩
      · have := (h.lock u).1 (owns_of_builds hb)
        simp [hl] at this
      refine ⟨hpos, hheld, u, ?_⟩
      rcases eq_or_ne u t with rfl | hne
      · rw [ht] at hu
        rwa [update_self]
      · rwa [waits_update hne]
    cases failed
    · simpa [hl, Mem.pipelock] using heof
    · simp
  case dClone failed =>
    have hd : s.mem.pipe.directw = false := (h.placed t).2 _ _ _ _ ht
    refine directReturn_good (fun loc ho _ => Half.unlock ?_ ho) file orig
    exact ⟨h.others (Or.inr mine), fun hd' => by simp [destroyWriteBuffer, hd] at hd'⟩
  case last =>
    split_ifs
    · exact move _ rfl rfl
    · exact move _ rfl rfl

/-! ## The files -/

/-- What the file of a thread in a call is like. -/
def Seated (files : Nat → Option File) (t : Nat) : Loc → Prop
  | .idle => True
  | .openRead file mode _ | .openWrite file mode _ => files file = some ⟨mode, some t, []⟩
  | .read file _ => ∃ x, files file = some x ∧ x.opener = none ∧ x.mode.fread = true ∧ t ∈ x.calls
  | .write file _ _ =>
    ∃ x, files file = some x ∧ x.opener = none ∧ x.mode.fwrite = true ∧ t ∈ x.calls

/-- There are at most `n` files on one side of the FIFO. -/
def Counted (side : Mode → Bool) (n : Nat) (files : Nat → Option File) : Prop :=
  ∃ R : Finset Nat, R.card ≤ n ∧ ∀ f x, files f = some x → side x.mode = true → f ∈ R

structure Inv (s : State) : Prop where
  good : Good s.mem s.threads
  seated : ∀ t, Seated s.files t (s.threads t)
  readers : Counted Mode.fread s.readers s.files
  writers : Counted Mode.fwrite s.writers s.files

section Files

variable {files : Nat → Option File} {side : Mode → Bool} {n file : Nat}

/-- A file that gives up neither its opener nor a call keeps the seat of thread `u`. -/
theorem Seated.keep {u : Nat} {x : Option File} (h : Seated files u loc)
    (ho : ∀ y, files file = some y → y.opener ≠ some u)
    (hc : ∀ y, files file = some y → u ∈ y.calls →
      ∃ z, x = some z ∧ z.mode = y.mode ∧ z.opener = y.opener ∧ u ∈ z.calls) :
    Seated (update files file x) u loc := by
  have call : ∀ f (P : Mode → Bool),
      (∃ y, files f = some y ∧ y.opener = none ∧ P y.mode = true ∧ u ∈ y.calls) →
      ∃ y, update files file x f = some y ∧ y.opener = none ∧ P y.mode = true ∧ u ∈ y.calls := by
    rintro f P ⟨y, hy, hopen, hm, hu⟩
    rcases eq_or_ne f file with rfl | hne
    · obtain ⟨z, rfl, hzm, hzo, hzu⟩ := hc y hy hu
      exact ⟨z, by simp, hzo.trans hopen, hzm ▸ hm, hzu⟩
    · exact ⟨y, by rwa [update_of_ne hne], hopen, hm, hu⟩
  have opening : ∀ f mode, files f = some ⟨mode, some u, []⟩ →
      update files file x f = some ⟨mode, some u, []⟩ := by
    intro f mode hy
    rcases eq_or_ne f file with rfl | hne
    · exact absurd rfl (ho _ hy)
    · rwa [update_of_ne hne]
  cases loc with
  | idle => trivial
  | openRead f mode gen => exact opening f mode h
  | openWrite f mode gen => exact opening f mode h
  | read f r => exact call f Mode.fread h
  | write f w orig => exact call f Mode.fwrite h

section

variable (h : Counted side n files)
include h

theorem Counted.mono {k : Nat} (hle : n ≤ k) : Counted side k files :=
  let ⟨R, hcard, hR⟩ := h
  ⟨R, hcard.trans hle, hR⟩

/-- A new file, or one that is there already, is on the sides it is opened for. -/
theorem Counted.register (x : File) :
    Counted side (n + if side x.mode = true then 1 else 0)
      (update files file (some x)) := by
  obtain ⟨R, hcard, hR⟩ := h
  by_cases hx : side x.mode = true
  · refine ⟨insert file R, ?_, fun f y hy hside => ?_⟩
    · rw [if_pos hx]
      exact (Finset.card_insert_le file R).trans (by omega)
    rcases eq_or_ne f file with rfl | hne
    · exact Finset.mem_insert_self f R
    · rw [update_of_ne hne] at hy
      exact Finset.mem_insert_of_mem (hR f y hy hside)
  refine ⟨R, by omega, fun f y hy hside => ?_⟩
  rcases eq_or_ne f file with rfl | hne
  · rw [update_self, Option.some.injEq] at hy
    exact absurd (hy ▸ hside) hx
  · rw [update_of_ne hne] at hy
    exact hR f y hy hside

theorem Counted.again (hx : files file = some x) {y : File}
    (hy : y.mode = x.mode) : Counted side n (update files file (some y)) := by
  obtain ⟨R, hcard, hR⟩ := h
  refine ⟨R, hcard, fun f z hz hside => ?_⟩
  rcases eq_or_ne f file with rfl | hne
  · rw [update_self, Option.some.injEq] at hz
    exact hR f x hx (by rwa [← hy, hz])
  · rw [update_of_ne hne] at hz
    exact hR f z hz hside

theorem Counted.remove (hx : files file = some x) :
    Counted side (n - if side x.mode = true then 1 else 0)
      (update files file none) := by
  obtain ⟨R, hcard, hR⟩ := h
  refine ⟨R.erase file, ?_, fun f y hy hside => ?_⟩
  · split_ifs with hs
    · rw [Finset.card_erase_of_mem (hR file x hx hs)]
      omega
    · exact (Finset.card_erase_le).trans (by omega)
  rcases eq_or_ne f file with rfl | hne
  · simp at hy
  · rw [update_of_ne hne] at hy
    exact Finset.mem_erase.2 ⟨hne, hR f y hy hside⟩

end

theorem Counted.none_of_zero (h : Counted side 0 files) {f : Nat} (hx : files f = some x) :
    side x.mode = false := by
  obtain ⟨R, hcard, hR⟩ := h
  have hempty := Finset.card_eq_zero.1 (Nat.le_zero.1 hcard)
  cases hs : side x.mode with
  | false => rfl
  | true => simpa [hempty] using hR f x hx hs

end Files

/-- What counting a file in or out may change. -/
structure Recounted (s s' : State) (readers writers : Nat) : Prop where
  files : s'.files = s.files
  threads : s'.threads = s.threads
  readers : s'.readers = readers
  writers : s'.writers = writers
  good : ∀ th, Good s.mem th → Good s'.mem th

theorem addReader_recounts (s : State) (mode : Mode) :
    Recounted s (addReader s mode) (s.readers + if mode.fread = true then 1 else 0) s.writers := by
  unfold addReader
  dsimp only
  split_ifs <;> exact ⟨rfl, rfl, rfl, rfl, fun th h => ⟨h.lock, h.placed, h.pages⟩⟩

theorem addWriter_recounts (s : State) (mode : Mode) :
    Recounted s (addWriter s mode) s.readers (s.writers + if mode.fwrite = true then 1 else 0) := by
  unfold addWriter
  dsimp only
  split_ifs <;> exact ⟨rfl, rfl, rfl, rfl, fun th h => ⟨h.lock, h.placed, h.pages⟩⟩

theorem dropReader_recounts (s : State) (mode : Mode) :
    Recounted s (dropReader s mode) (s.readers - if mode.fread = true then 1 else 0) s.writers := by
  unfold dropReader
  dsimp only
  split_ifs <;> exact ⟨rfl, rfl, rfl, rfl, fun th h => ⟨h.lock, h.placed, h.pages⟩⟩

theorem dropWriter_recounts (s : State) (mode : Mode) : Recounted s (dropWriter s mode) s.readers
      (s.writers - if mode.fwrite = true then 1 else 0) := by
  unfold dropWriter
  dsimp only
  split_ifs <;> exact ⟨rfl, rfl, rfl, rfl, fun th h => ⟨h.lock, h.placed, h.pages⟩⟩

/-- The pipe is destroyed when no file is open, so no call is in progress. -/
theorem Inv.cleanup (h : Inv s) : Inv (fifoCleanup s) := by
  unfold fifoCleanup
  split_ifs with hz
  · have hr := h.readers
    have hw := h.writers
    rw [hz.1] at hr
    rw [hz.2] at hw
    have free : ∀ t, owns (s.threads t) = false := by
      intro t
      have hseat := h.seated t
      cases ht : s.threads t with
      | idle | openRead file mode gen | openWrite file mode gen => rfl
      | read file r =>
        rw [ht] at hseat
        obtain ⟨x, hx, -, hm, -⟩ := hseat
        simp [hr.none_of_zero hx] at hm
      | write file w orig =>
        rw [ht] at hseat
        obtain ⟨x, hx, -, hm, -⟩ := hseat
        simp [hw.none_of_zero hx] at hm
    refine ⟨⟨fun t => ?_, fun t => placed_of_not_owns _ (free t), fun hd => ?_⟩, h.seated,
      h.readers, h.writers⟩
    · simp [free t, newPipe]
    · simp [newPipe] at hd
  · exact h

/-! ## Steps -/

section Steps

variable {s s' : State} {file : Nat} {mode : Mode}

theorem Recounted.inv (c : Recounted s s' r w) (h : Inv s) (hr : s.readers ≤ r) (hw : s.writers ≤ w)
    : Inv s' := by
  refine ⟨?_, fun t => ?_, ?_, ?_⟩
  · rw [c.threads]
    exact c.good _ h.good
  · rw [c.files, c.threads]
    exact h.seated t
  · rw [c.files, c.readers]
    exact h.readers.mono hr
  · rw [c.files, c.writers]
    exact h.writers.mono hw

theorem Recounted.trans {s'' : State} {r' w' : Nat} (c : Recounted s s' r w)
    (c' : Recounted s' s'' r' w') : Recounted s s'' r' w' :=
  ⟨c'.files.trans c.files, c'.threads.trans c.threads, c'.readers, c'.writers,
    fun th h => c'.good th (c.good th h)⟩

/-- Thread `t` goes to a place outside of the pipe, and its file becomes `x`. -/
theorem Recounted.put (c : Recounted s s' r w) (h : Inv s)
    (hfree : owns (s.threads t) = false ∧ waits (s.threads t) = none)
    (hfree' : owns loc = false ∧ waits loc = none) {x : Option File}
    (hothers : ∀ y, s.files file = some y → y.calls = [] ∧ ∀ u ∈ y.opener, u = t)
    (mine : Seated (update s.files file x) t loc)
    (readers : Counted Mode.fread r (update s.files file x))
    (writers : Counted Mode.fwrite w (update s.files file x)) : Inv (s'.put t loc file x) := by
  refine ⟨?_, fun u => ?_, ?_, ?_⟩
  · have g := h.good.move hfree.1 hfree'.1 (hfree'.2.trans hfree.2.symm)
    simpa only [State.put, c.threads] using c.good _ g
  · simp only [State.put, c.files, c.threads]
    rcases eq_or_ne u t with rfl | hne
    · rwa [update_self]
    rw [update_of_ne hne]
    refine (h.seated u).keep (fun y hy ho => ?_) (fun y hy hu => ?_)
    · exact hne ((hothers y hy).2 u ho)
    · simp [(hothers y hy).1] at hu
  · simpa only [State.put, c.files, c.readers] using readers
  · simpa only [State.put, c.files, c.writers] using writers

theorem Recounted.refl (s : State) : Recounted s s s.readers s.writers :=
  ⟨rfl, rfl, rfl, rfl, fun _ h => h⟩

/-- Whatever `openWriter` comes to, it does to the file and the thread alone. -/
theorem openWriter_inv
    (h : ∀ loc o, (owns loc = false ∧ waits loc = none) →
      (∀ files, files file = some ⟨mode, o, []⟩ → Seated files t loc) →
      Inv (s.put t loc file (some ⟨mode, o, []⟩))) :
    Inv (openWriter s t file mode) := by
  unfold openWriter
  split_ifs
  · exact h _ _ ⟨rfl, rfl⟩ fun _ hf => hf
  · exact h _ _ ⟨rfl, rfl⟩ fun _ _ => trivial

section

variable (h : Inv s)
include h

theorem Inv.fifoOpen (ht : s.threads t = .idle) (hf : s.files file = none) :
    Inv (fifoOpen s t file mode) := by
  have c1 := addReader_recounts s mode
  have c2 := c1.trans (addWriter_recounts (addReader s mode) mode)
  rw [c1.readers, c1.writers] at c2
  have hput : ∀ loc o, (owns loc = false ∧ waits loc = none) →
      (∀ files, files file = some ⟨mode, o, []⟩ → Seated files t loc) →
      Inv ((addWriter (addReader s mode) mode).put t loc file (some ⟨mode, o, []⟩)) := by
    intro loc o hfree hseat
    refine c2.put h (by simp [ht, owns, waits]) hfree (fun y hy => ?_) (hseat _ (by simp))
      (h.readers.register ⟨mode, o, []⟩) (h.writers.register ⟨mode, o, []⟩)
    simp [hf] at hy
  unfold Pipes.fifoOpen
  dsimp only
  split_ifs
  · exact (c1.inv h (Nat.le_add_right _ _) le_rfl).cleanup
  · exact c1.inv h (Nat.le_add_right _ _) le_rfl
  · exact hput _ _ ⟨rfl, rfl⟩ fun _ _ => trivial
  · exact hput _ _ ⟨rfl, rfl⟩ fun _ hf => hf
  · exact openWriter_inv hput

/-- A file that is still opened by thread `t` is opened further, or given up. -/
theorem Inv.opening (hfree : owns (s.threads t) = false ∧ waits (s.threads t) = none)
    (hf : s.files file = some ⟨mode, some t, []⟩) (loc : Loc) (o : Option Nat)
    (hfree' : owns loc = false ∧ waits loc = none)
    (hseat : ∀ files, files file = some ⟨mode, o, []⟩ → Seated files t loc) :
    Inv (s.put t loc file (some ⟨mode, o, []⟩)) := by
  refine (Recounted.refl s).put h hfree hfree' (fun y hy => ?_) (hseat _ (by simp))
    (h.readers.again hf rfl) (h.writers.again hf rfl)
  rw [hf, Option.some.injEq] at hy
  simp [← hy]

theorem Inv.dropped (hfree : owns (s.threads t) = false ∧ waits (s.threads t) = none)
    (hf : s.files file = some x) (hx : x.calls = [] ∧ ∀ u ∈ x.opener, u = t)
    (c : Recounted s s' r w) (hr : s.readers - (if x.mode.fread = true then 1 else 0) ≤ r)
    (hw : s.writers - (if x.mode.fwrite = true then 1 else 0) ≤ w) :
    Inv (s'.put t .idle file none) := by
  refine c.put h hfree ⟨rfl, rfl⟩ (fun y hy => ?_) trivial ((h.readers.remove hf).mono hr)
    ((h.writers.remove hf).mono hw)
  rw [hf, Option.some.injEq] at hy
  rwa [← hy]

theorem Inv.openReadWoken {gen : Nat} (ht : s.threads t = .openRead file mode gen)
    (error : Bool) : Inv (openReadWoken s t file mode gen error) := by
  have hf : s.files file = some ⟨mode, some t, []⟩ := by simpa [ht, Seated] using h.seated t
  have hfree : owns (s.threads t) = false ∧ waits (s.threads t) = none := by simp [ht, owns, waits]
  unfold Pipes.openReadWoken
  dsimp only
  split_ifs
  · have := h.dropped hfree hf (by simp) (dropReader_recounts s mode) le_rfl (Nat.sub_le _ _)
    exact this.cleanup
  · exact h.dropped hfree hf (by simp) (dropReader_recounts s mode) le_rfl (Nat.sub_le _ _)
  · exact openWriter_inv (h.opening hfree hf)

theorem Inv.openWriteWoken {gen : Nat} (ht : s.threads t = .openWrite file mode gen)
    (error : Bool) : Inv (openWriteWoken s t file mode gen error) := by
  have hf : s.files file = some ⟨mode, some t, []⟩ := by simpa [ht, Seated] using h.seated t
  have hfree : owns (s.threads t) = false ∧ waits (s.threads t) = none := by simp [ht, owns, waits]
  unfold Pipes.openWriteWoken
  dsimp only
  split_ifs
  · have := h.dropped hfree hf (by simp) (dropWriter_recounts s mode) (Nat.sub_le _ _) le_rfl
    exact this.cleanup
  · exact h.dropped hfree hf (by simp) (dropWriter_recounts s mode) (Nat.sub_le _ _) le_rfl
  · exact h.opening hfree hf _ _ ⟨rfl, rfl⟩ fun _ _ => trivial

theorem Inv.fifoClose (ht : s.threads t = .idle)
    (hf : s.files file = some ⟨mode, none, []⟩) : Inv (fifoClose s t file mode) := by
  have c1 := dropReader_recounts s mode
  have c2 := c1.trans (dropWriter_recounts (dropReader s mode) mode)
  rw [c1.readers, c1.writers] at c2
  exact (h.dropped (by simp [ht, owns, waits]) hf (by simp) c2 le_rfl le_rfl).cleanup

/-- A call begins on an open file. -/
theorem Inv.enter (ht : s.threads t = .idle) {calls : List Nat}
    (hf : s.files file = some ⟨mode, none, calls⟩) (hfree : owns loc = false ∧ waits loc = none)
    (hseat : ∀ files, files file = some ⟨mode, none, t :: calls⟩ → Seated files t loc) :
    Inv (s.put t loc file (some ⟨mode, none, t :: calls⟩)) := by
  refine ⟨?_, fun u => ?_, h.readers.again hf rfl, h.writers.again hf rfl⟩
  · exact h.good.move (by rw [ht]; rfl) hfree.1 (by rw [ht, hfree.2]; rfl)
  simp only [State.put]
  rcases eq_or_ne u t with rfl | hne
  · rw [update_self]
    exact hseat _ (by simp)
  rw [update_of_ne hne]
  refine (h.seated u).keep (fun y hy => ?_) (fun y hy hu => ⟨_, rfl, ?_⟩)
  all_goals
    rw [hf, Option.some.injEq] at hy
    subst hy
  · simp
  · exact ⟨rfl, rfl, List.mem_cons_of_mem t hu⟩

theorem Inv.goOn {m : Mem} (hg : Good m (update s.threads t loc))
    (hseat : Seated s.files t loc) : Inv (s.goOn m t loc) := by
  refine ⟨hg, fun u => ?_, h.readers, h.writers⟩
  simp only [State.goOn]
  rcases eq_or_ne u t with rfl | hne
  · rwa [update_self]
  · rw [update_of_ne hne]
    exact h.seated u

theorem Inv.leave {m : Mem} (hg : Good m (update s.threads t .idle))
    (hf : s.files file = some x) (ho : x.opener = none) : Inv (s.leave m t file) := by
  unfold State.leave
  rw [hf, Option.map_some]
  refine ⟨hg, fun u => ?_, h.readers.again hf rfl, h.writers.again hf rfl⟩
  simp only [State.put]
  rcases eq_or_ne u t with rfl | hne
  · rw [update_self]
    trivial
  rw [update_of_ne hne]
  refine (h.seated u).keep (fun y hy => ?_) (fun y hy hu => ⟨_, rfl, ?_⟩)
  all_goals
    rw [hf, Option.some.injEq] at hy
    subst hy
  · simp [ho]
  · exact ⟨rfl, rfl, by simp [hu, hne]⟩

end

end Steps

theorem Inv.step (h : Inv s) (op : Nat × Op) (heof : leavesAtEof s op = false) :
    Inv (step s op) := by
  rcases op with ⟨t, op⟩
  unfold Pipes.step
  dsimp only
  split
  next file mode ht =>
    split
    next hf => exact h.fifoOpen ht hf
    next => exact h
  next file ht =>
    split
    next mode hf => exact h.fifoClose ht hf
    next => exact h
  next file resid ht =>
    split
    next mode calls hf =>
      split_ifs with hm
      · exact h.enter ht hf ⟨rfl, rfl⟩ fun files he => ⟨_, he, rfl, hm, List.mem_cons_self⟩
      · exact h
    next => exact h
  next file iov ht =>
    split
    next mode calls hf =>
      split_ifs with hm
      · exact h.enter ht hf ⟨rfl, rfl⟩ fun files he => ⟨_, he, rfl, hm, List.mem_cons_self⟩
      · exact h
    next => exact h
  next file mode gen error size ht => exact h.openReadWoken ht error
  next file mode gen error size ht => exact h.openWriteWoken ht error
  next file r error size ht =>
    obtain ⟨x, hf, hx⟩ : Seated s.files t (.read file r) := ht ▸ h.seated t
    have g := pipeRead_good h.good ht x.mode.nonblock error size
    simp only [hf]
    split
    next m r' hr =>
      rw [hr] at g
      exact h.goOn g ⟨x, hf, hx⟩
    next m hr =>
      rw [hr] at g
      exact h.leave g hf hx.1
  next file w orig error size ht =>
    obtain ⟨x, hf, hx⟩ : Seated s.files t (.write file w orig) := ht ▸ h.seated t
    have g := pipeWrite_good h.good ht x.mode.nonblock error size heof
    simp only [hf]
    split
    next m r' hr =>
      rw [hr] at g
      exact h.goOn g ⟨x, hf, hx⟩
    next m hr =>
      rw [hr] at g
      exact h.leave g hf hx.1
  next => exact h

theorem inv_start : Inv start :=
  ⟨⟨fun t => by simp [start, owns, newPipe], fun t => placed_of_not_owns _ rfl, nofun⟩,
    fun t => trivial, ⟨∅, le_rfl, nofun⟩, ⟨∅, le_rfl, nofun⟩⟩

theorem Inv.safe (h : Inv s) : Safe s := by
  refine ⟨fun t n hn => ?_, fun hd hl => ?_⟩
  · obtain ⟨hd, hle⟩ := (h.good.placed t).1 n hn
    have hl := (h.good.lock t).1 (of_copies hn).1
    rcases h.good.pages hd with ⟨w, hb⟩ | ⟨hpos, hheld, w, hw⟩
    · -- the reader has the lock, so no writer is building
      have hwl := (h.good.lock w).1 (owns_of_builds hb)
      rw [hl, Option.some.injEq] at hwl
      rw [← hwl, (of_copies hn).2] at hb
      exact absurd hb Bool.false_ne_true
    · exact ⟨by omega, hheld, w, hw⟩
  rcases h.good.pages hd with ⟨w, hb⟩ | ⟨-, -, w, hw⟩
  · have hwl := (h.good.lock w).1 (owns_of_builds hb)
    simp [hl] at hwl
  · exact ⟨w, by simp [hw]⟩

/-- In every run in which no writer leaves the flag set, the pages that a reader copies from
    are held by a writer that waits. -/
theorem direct_write_safe (ops : List (Nat × Op)) (s : State)
    (hrun : runOps (fun s op => some (step s op)) start ops = some s)
    (hops : EveryStep (fun s op => some (step s op)) (fun s op => leavesAtEof s op = false)
      start ops) : Safe s := by
  refine (runOps_invariant_of _ _ Inv (fun s op s' h heof he => ?_) ops start s inv_start hops
    hrun).safe
  rw [Option.some.injEq] at he
  exact he ▸ h.step op heof

def reading : Mode := ⟨true, false, true⟩

def writing : Mode := ⟨false, true, false⟩

/-- Two pages are written directly. -/
def directRun : List (Nat × Op) :=
  [(0, .openFile 0 reading), (1, .openFile 1 writing), (1, .write 1 [8192]), (1, .go false none),
    (1, .go false none), (1, .go false none)]

def readRun : List (Nat × Op) := [(0, .read 0 100), (0, .go false none)]

theorem direct_write_safe_example :
    ∃ s, runOps (fun s op => some (step s op)) start (directRun ++ readRun) = some s ∧
      copies (s.threads 0) = some 100 ∧ Safe s :=
  have hops : EveryStep (fun s op => some (step s op)) (fun s op => leavesAtEof s op = false)
      start (directRun ++ readRun) := by decide
  ⟨_, rfl, by decide, direct_write_safe (directRun ++ readRun) _ rfl hops⟩

/-- The reader goes while the writer waits, which lets its pages go, and comes again. -/
def reopenRun : List (Nat × Op) :=
  directRun ++
    [(0, .close 0), (1, .go false none), (1, .go false none), (0, .openFile 0 reading)] ++ readRun

theorem stale_pages_are_read :
    ¬∀ ops s, runOps (fun s op => some (step s op)) start ops = some s → Safe s := by
  intro h
  have hread : ∀ s ∈ runOps (fun s op => some (step s op)) start reopenRun,
      copies (s.threads 0) = some 100 ∧ s.mem.held s.mem.pipe.ms = false := by decide
  have hs := hread _ rfl
  have := ((h reopenRun _ rfl).1 0 100 hs.1).2.1
  rw [hs.2] at this
  exact Bool.false_ne_true this

end FreeBSDKern.Pipes
