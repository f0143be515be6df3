import FreeBSDKern.Lib.WordMap

/-!
# The File Descriptor Table

The table of `kern_descrip.c`: an array of entries, a bitmap of the descriptors
in use and two hints. `fd_lastfile` is the highest descriptor in use and
`fd_freefile` a bound below which none is free. Every function here is the
source's, on an explicit table.

A `KASSERT` that fails makes a function return `none`. The system calls return
an `Except` beside the table they leave, so that a refused call says what it did
to the table. Arithmetic on `int` is on `Int` with the wrap where the source can
reach it: doubling a size, doubling a descriptor, and the rounded size of a
grown table, which is computed in `unsigned long` and stored in an `int`.

What the limits of the calling thread say is a parameter: `maxfd` is the value
of `getmaxfd`, and `racct`, when resource accounting is on, tells whether
`racct_set` refuses a table of that many descriptors.

## Main definitions

* `Filedesc`: The table.
* `fdFirstFree`, `fdLastUsed`: The two searches of the bitmap.
* `fdused`, `fdunused`: Marking a descriptor.
* `fdgrowtable`, `fdalloc`: Growing the table and allocating from it.
* `kernDup`, `finstall`, `fdfree`: The calls that change entries.
* `fdcopy`, `fdcopyRemapped`: The two ways to copy a table.
-/

namespace FreeBSDKern.Fd

open Lib

inductive Errno where
  | EBADF
  | EINVAL
  | EMFILE
  | E2BIG
  deriving DecidableEq, Repr

def ndfile : Nat := 20

/-- The descriptors one word of the bitmap stands for. -/
def ndentries : Nat := 64

def ndslot (x : Nat) : Nat := x / ndentries

def ndslots (x : Nat) : Nat := ((x + (ndentries - 1)) % 2 ^ 64) / ndentries

/-- Conversion to `int`. -/
def toInt (x : Int) : Int := x.bmod (2 ^ 32)

/-- Conversion to `unsigned long`. -/
def toULong (x : Int) : Nat := (x % 2 ^ 64).toNat

/-- `min` of the kernel library, which compares as `unsigned int`. -/
def umin (a b : Int) : Int := toInt (min (a % 2 ^ 32) (b % 2 ^ 32))

/-- An open file, with the flags of its operations. -/
structure File where
  id : Nat
  foFlags : BitVec 32
  deriving DecidableEq

def dflagPassable : BitVec 32 := 1#32

def File.passable (fp : File) : Bool := fp.foFlags &&& dflagPassable != 0#32

structure Filecaps where
  rights : List Nat
  ioctls : Option (List Nat)
  nioctls : Int
  fcntls : Nat
  deriving DecidableEq

def ufExclose : BitVec 8 := 1#8

structure Filedescent where
  file : Option File
  caps : Filecaps
  flags : BitVec 8
  deriving DecidableEq

/-- The capabilities `bzero` leaves. -/
def Filecaps.zero : Filecaps := ⟨[0, 0], none, 0, 0⟩

/-- An entry of a zeroed table. -/
def Filedescent.zero : Filedescent := ⟨none, Filecaps.zero, 0#8⟩

structure Filedesc where
  ofiles : List Filedescent
  nfiles : Int
  map : List (BitVec 64)
  lastfile : Int
  freefile : Int
  deriving DecidableEq

def Filedesc.entry (fdp : Filedesc) (fd : Int) : Filedescent :=
  fdp.ofiles.getD fd.toNat Filedescent.zero

def Filedesc.setEntry (fdp : Filedesc) (fd : Int) (fde : Filedescent) : Filedesc :=
  { fdp with ofiles := fdp.ofiles.set fd.toNat fde }

/-- The word loop of `fd_first_free`, with `n` words left to look at. -/
def firstFreeLoop (map : List (BitVec 64)) (size : Int) : Nat → Nat → Int
  | 0, _ => size
  | n + 1, off =>
    if WordMap.word map off ≠ BitVec.allOnes 64 then
      off * ndentries + WordMap.ffs (~~~(WordMap.word map off)) - 1
    else firstFreeLoop map size n (off + 1)

def fdFirstFree (map : List (BitVec 64)) (low size : Int) : Int :=
  if size ≤ low then low
  else
    let off := ndslot low.toNat
    let maxoff := ndslots (toULong size)
    if low.toNat % ndentries ≠ 0 then
      let mask := WordMap.highMask 64 (low.toNat % ndentries) &&& ~~~(WordMap.word map off)
      if mask ≠ 0#64 then off * ndentries + WordMap.ffs mask - 1
      else firstFreeLoop map size (maxoff - (off + 1)) (off + 1)
    else firstFreeLoop map size (maxoff - off) off

/-- The word loop of `fd_last_used`, over the words below the argument. -/
def lastUsedLoop (map : List (BitVec 64)) : Nat → Int
  | 0 => -1
  | off + 1 =>
    if WordMap.word map off ≠ 0#64 then
      off * ndentries + WordMap.fls (WordMap.word map off) - 1
    else lastUsedLoop map off

def fdLastUsed (map : List (BitVec 64)) (size : Int) : Int :=
  let off := ndslot size.toNat
  if size.toNat % ndentries ≠ 0 then
    let mask := WordMap.lowMask 64 (size.toNat % ndentries) &&& WordMap.word map off
    if mask ≠ 0#64 then off * ndentries + WordMap.fls mask - 1
    else lastUsedLoop map off
  -- The word of `size` itself is looked at whole here.
  else lastUsedLoop map (off + 1)

def fdisused (fdp : Filedesc) (fd : Int) : Option Bool :=
  if 0 ≤ fd ∧ fd < fdp.nfiles then some (WordMap.bit fdp.map fd.toNat) else none

def fdusedInit (fdp : Filedesc) (fd : Int) : Option Filedesc :=
  match fdisused fdp fd with
  | some false => some { fdp with map := WordMap.setBit fdp.map fd.toNat }
  | _ => none

/-- The update of both hints after the bit of `fd` has been set. -/
def fdusedHints (fdp : Filedesc) (fd : Int) : Filedesc :=
  { fdp with
    lastfile := if fd > fdp.lastfile then fd else fdp.lastfile
    freefile :=
      if fd = fdp.freefile then fdFirstFree fdp.map fd fdp.nfiles else fdp.freefile }

def fdused (fdp : Filedesc) (fd : Int) : Option Filedesc :=
  (fdusedInit fdp fd).map (fun fdp => fdusedHints fdp fd)

def fdunused (fdp : Filedesc) (fd : Int) : Option Filedesc :=
  if fdisused fdp fd = some true ∧ (fdp.entry fd).file = none then
    let map := WordMap.clearBit fdp.map fd.toNat
    some { fdp with
      map := map
      freefile := if fd < fdp.freefile then fd else fdp.freefile
      lastfile := if fd = fdp.lastfile then fdLastUsed map fd else fdp.lastfile }
  else none

def fdfree (fdp : Filedesc) (fd : Int) : Option Filedesc :=
  -- `fdefree_last` clears the capabilities before the entry loses its file.
  fdunused (fdp.setEntry fd { fdp.entry fd with file := none, caps := Filecaps.zero }) fd

def fdgrowtable (fdp : Filedesc) (nfd : Int) : Filedesc :=
  let onfiles := fdp.nfiles
  let nnfiles := toInt (ndslots (toULong nfd) * ndentries)
  if nnfiles ≤ onfiles then fdp
  else
    let oslots := ndslots (toULong onfiles)
    let nslots := ndslots (toULong nnfiles)
    { fdp with
      nfiles := nnfiles
      ofiles := fdp.ofiles.take onfiles.toNat ++
        List.replicate (nnfiles.toNat - onfiles.toNat) Filedescent.zero
      map :=
        if nslots > oslots then fdp.map.take oslots ++ List.replicate (nslots - oslots) 0#64
        else fdp.map }

def fdgrowtableExp (fdp : Filedesc) (nfd : Int) : Filedesc :=
  let nfd1 := toInt (fdp.nfiles * 2)
  fdgrowtable fdp (if nfd1 < nfd then nfd else nfd1)

/-- What bounds the descriptors of the calling thread. -/
structure Limits where
  maxfd : Int
  racct : Option (Int → Bool)

/-- `racct_set` refuses a table of `n` descriptors. -/
def Limits.refuses (lim : Limits) (n : Int) : Bool :=
  match lim.racct with
  | none => false
  | some racctSet => racctSet n

/-- The end of `fdalloc`: the sanity checks and the mark. -/
def fdallocMark (lim : Limits) (fdp : Filedesc) (fd : Int) : Option (Except Errno Int × Filedesc) :=
  if 0 ≤ fd ∧ fd < umin lim.maxfd fdp.nfiles ∧ (fdp.entry fd).file = none then
    (fdused fdp fd).map (fun fdp => (.ok fd, fdp))
  else none

def fdalloc (lim : Limits) (fdp : Filedesc) (minfd : Int) : Option (Except Errno Int × Filedesc) :=
  let minfd := if fdp.freefile > minfd then fdp.freefile else minfd
  let fd := fdFirstFree fdp.map minfd fdp.nfiles
  if fd ≥ lim.maxfd then some (.error .EMFILE, fdp)
  else if fd ≥ fdp.nfiles then
    let allocfd := umin (toInt (fd * 2)) lim.maxfd
    if lim.refuses allocfd then some (.error .EMFILE, fdp)
    else fdallocMark lim (fdgrowtableExp fdp allocfd) fd
  else fdallocMark lim fdp fd

/-- The file of an open descriptor. -/
def fgetLocked (fdp : Filedesc) (fd : Int) : Option File :=
  if fd < 0 ∨ fd > fdp.lastfile then none else (fdp.entry fd).file

inductive DupMode where
  | normal
  | fcntl
  | fixed
  | mustreplace
  deriving DecidableEq, Repr

/-- The second half of `kern_dup`: the entry of `old` is copied to `new`. -/
def dupEntry (fdp : Filedesc) (cloexec : Bool) (old new : Int) :
    Option (Except Errno Int × Filedesc) :=
  if old ≠ new then
    let oldfde := fdp.entry old
    let flags := if cloexec then oldfde.flags ||| ufExclose else oldfde.flags &&& ~~~ufExclose
    some (.ok new, fdp.setEntry new { oldfde with flags := flags })
  else none

/-- The growth of the table for a fixed descriptor. -/
def dupGrow (lim : Limits) (fdp : Filedesc) (new : Int) : Except Errno Filedesc :=
  if new ≥ fdp.nfiles then
    if lim.refuses (toInt (new + 1)) then .error .EMFILE
    else .ok (fdgrowtableExp fdp (toInt (new + 1)))
  else .ok fdp

def dupFixed (lim : Limits) (fdp : Filedesc) (cloexec : Bool) (old new : Int) :
    Option (Except Errno Int × Filedesc) :=
  match dupGrow lim fdp new with
  | .error e => some (.error e, fdp)
  | .ok fdp =>
    match fdisused fdp new with
    | none => none
    | some true => dupEntry fdp cloexec old new
    | some false => (fdused fdp new).bind (fun fdp => dupEntry fdp cloexec old new)

/-- `kern_dup` once `old` is known to be open and the shortcut for equal
    descriptors is past. -/
def dupSwitch (lim : Limits) (fdp : Filedesc) (mode : DupMode) (cloexec : Bool) (old new : Int) :
    Option (Except Errno Int × Filedesc) :=
  match mode with
  | .normal | .fcntl =>
    match fdalloc lim fdp new with
    | none => none
    | some (.error e, fdp) => some (.error e, fdp)
    | some (.ok new, fdp) => dupEntry fdp cloexec old new
  | .mustreplace =>
    match fgetLocked fdp new with
    | none => some (.error .EBADF, fdp)
    | some _ => dupEntry fdp cloexec old new
  | .fixed => dupFixed lim fdp cloexec old new

def kernDup (lim : Limits) (fdp : Filedesc) (mode : DupMode) (cloexec : Bool) (old new : Int) :
    Option (Except Errno Int × Filedesc) :=
  let bounds : Errno := if mode = .fcntl then .EINVAL else .EBADF
  if old < 0 then some (.error .EBADF, fdp)
  else if new < 0 then some (.error bounds, fdp)
  else if new ≥ lim.maxfd then some (.error bounds, fdp)
  else if fgetLocked fdp old = none then some (.error .EBADF, fdp)
  else if (mode = .fixed ∨ mode = .mustreplace) ∧ old = new then
    let fde := fdp.entry new
    some (.ok new,
      if cloexec then fdp.setEntry new { fde with flags := fde.flags ||| ufExclose } else fdp)
  else dupSwitch lim fdp mode cloexec old new

/-- `_finstall`; the capabilities are those moved in, or the full ones. -/
def finstallAt (fdp : Filedesc) (fp : File) (fd : Int) (cloexec : Bool) (fcaps : Filecaps) :
    Filedesc :=
  fdp.setEntry fd
    { file := some fp, caps := fcaps, flags := if cloexec then ufExclose else 0#8 }

def finstall (lim : Limits) (fdp : Filedesc) (fp : File) (cloexec : Bool) (fcaps : Filecaps) :
    Option (Except Errno Int × Filedesc) :=
  match fdalloc lim fdp 0 with
  | none => none
  | some (.error e, fdp) => some (.error e, fdp)
  | some (.ok fd, fdp) => some (.ok fd, finstallAt fdp fp fd cloexec fcaps)

/-- `fdinit` without a table to take after. -/
def fdinit0 : Filedesc where
  ofiles := List.replicate ndfile Filedescent.zero
  nfiles := ndfile
  map := List.replicate (ndslots ndfile) 0#64
  lastfile := -1
  freefile := 0

/-- One look of `fdinit` at the `fd_lastfile` of the table it takes after. -/
def prepfiles (newfdp : Filedesc) (lastfile : Int) : Filedesc :=
  if lastfile ≥ newfdp.nfiles then fdgrowtable newfdp (toInt (lastfile + 1)) else newfdp

/-- `fdinit` with `prepfiles` set. The lock on the old table is dropped while
    the new one grows, so the function looks at `fd_lastfile` any number of times:
    `seen` are the values found, the last of them under the lock that is kept. -/
def fdinit (seen : List Int) : Filedesc := seen.foldl prepfiles fdinit0

/-- One round of the loop of `fdcopy`. -/
def fdcopyOne (fdp newfdp : Filedesc) (i : Nat) : Option Filedesc :=
  let ofde := fdp.entry i
  match ofde.file with
  | none => some (if newfdp.freefile = -1 then { newfdp with freefile := i } else newfdp)
  | some fp =>
    if fp.passable then
      (fdusedInit (newfdp.setEntry i ofde) i).map (fun newfdp => { newfdp with lastfile := i })
    else some (if newfdp.freefile = -1 then { newfdp with freefile := i } else newfdp)

def fdcopyLoop (fdp : Filedesc) : Filedesc → List Nat → Option Filedesc
  | newfdp, [] => some newfdp
  | newfdp, i :: is => (fdcopyOne fdp newfdp i).bind (fun newfdp => fdcopyLoop fdp newfdp is)

def fdcopy (fdp : Filedesc) (seen : List Int) : Option Filedesc :=
  let newfdp := { fdinit (seen ++ [fdp.lastfile]) with freefile := -1 }
  (fdcopyLoop fdp newfdp (List.range (fdp.lastfile + 1).toNat)).map (fun newfdp =>
    if newfdp.freefile = -1 then { newfdp with freefile := fdp.lastfile + 1 } else newfdp)

/-- The loop of `fdcopy_remapped` from round `i` on. -/
def remapLoop (fdp : Filedesc) : Nat → List Int → Filedesc → Option (Except Errno Filedesc)
  | _, [], newfdp => some (.ok newfdp)
  | i, fd :: fds, newfdp =>
    if fd < 0 ∨ fd > fdp.lastfile then some (.error .EBADF)
    else
      let ofde := fdp.entry fd
      match ofde.file with
      | none => some (.error .EBADF)
      | some fp =>
        if fp.passable then
          match fdusedInit (newfdp.setEntry i ofde) i with
          | none => none
          | some newfdp => remapLoop fdp (i + 1) fds { newfdp with lastfile := i }
        else some (.error .EINVAL)

def fdcopyRemapped (fdp : Filedesc) (seen : List Int) (fds : List Int) :
    Option (Except Errno Filedesc) :=
  let newfdp := fdinit (seen ++ [fdp.lastfile])
  if fds.length > (fdp.lastfile + 1).toNat then some (.error .E2BIG)
  else remapLoop fdp 0 fds { newfdp with freefile := fds.length }

end FreeBSDKern.Fd
