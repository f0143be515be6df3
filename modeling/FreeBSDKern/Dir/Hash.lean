import FreeBSDKern.Dir.Block
import FreeBSDKern.Lib.Probe

/-!
# The Directory Hash

The model of `ufs_dirhash.c`. A large directory has a table of the offsets of its
entries, hashed by their names, and for each block of the directory the words that are
free in it. The table is told of every change of the directory. It may go away at any
time, when it gets too full, when the directory outgrows it, or when the memory is wanted
for another directory, and it is built again from the blocks.

The locks and the list of all hashes are left out. They decide when a hash is recycled,
which is an operation of its own here.

## Main definitions

* `Dirhash`: The hash of a directory.
* `build`, `add`, `remove`, `move`, `newblk`, `dirtrunc`: Its operations.
* `lookup`: The search for a name.
-/

namespace FreeBSDKern.Dir

open Lib Function

def diralign : Nat := 4

/-- The most words of a directory entry. -/
def dhNfstats : Nat := directsiz 256 / diralign

def dhNblkoff : Nat := 256

def blkfree2idx (n : Nat) : Nat := if n > dhNfstats then dhNfstats else n

structure Dirhash where
  /-- Where the structure is, which goes into the hash of a name. -/
  self : UInt64
  dhHash : Nat → Slot Nat
  dhNarrays : Nat
  /-- Total slots in the hash array. -/
  dhHlen : Nat
  dhHused : Nat
  /-- Free words in each block. -/
  dhBlkfree : Nat → Nat
  dhNblk : Nat
  dhDirblks : Nat
  /-- First block with so many words free. -/
  dhFirstfree : Nat → Option Nat
  dhSeqoff : Option Nat

/-- What the inode points to. A hash that was recycled is still there, without a table. -/
inductive IDirhash where
  | null
  | recycled (self : UInt64)
  | hashed (dh : Dirhash)

/-! ## The hash of a name -/

def fnv32Buf (buf : List UInt8) (hval : UInt32) : UInt32 :=
  buf.foldl (fun h c => h * 0x01000193 ^^^ c.toUInt32) hval

def fnv132Init : UInt32 := 33554467

/-- The bytes of a pointer. -/
def pointerBytes (p : UInt64) : List UInt8 :=
  (List.range 8).map (fun i => (p >>> (8 * UInt64.ofNat i)).toUInt8)

def Dirhash.hash (dh : Dirhash) (name : Name) : Nat :=
  (fnv32Buf (pointerBytes dh.self) (fnv32Buf name fnv132Init)).toNat % dh.dhHlen

/-! ## Free space -/

/-- `ufsdirhash_adjfree`. -/
def adjfree (dh : Dirhash) (offset : Nat) (diff : Int) : Dirhash :=
  let block := offset / dirblksiz
  let ofidx := blkfree2idx (dh.dhBlkfree block)
  let free := ((dh.dhBlkfree block + diff.tdiv diralign) % 2 ^ 8).toNat
  let blkfree := update dh.dhBlkfree block free
  let nfidx := blkfree2idx free
  if ofidx ≠ nfidx then
    -- If removing, scan forward for the next block.
    let firstfree := if dh.dhFirstfree ofidx = some block then
        update dh.dhFirstfree ofidx
          ((List.range' (block + 1) (dh.dhDirblks - (block + 1))).find?
            (fun i => blkfree2idx (blkfree i) = ofidx))
      else dh.dhFirstfree
    let firstfree := if (firstfree nfidx).all (fun i => i > block) then
        update firstfree nfidx (some block)
      else firstfree
    { dh with dhBlkfree := blkfree, dhFirstfree := firstfree }
  else { dh with dhBlkfree := blkfree }

/-! ## Changes -/

/-- `ufsdirhash_findslot`. `none` is a panic. -/
def findslot (dh : Dirhash) (name : Name) (offset : Nat) : Option Nat :=
  (seek (fun v => v = .used offset ∨ v = .empty) dh.dhHlen dh.dhHash dh.dhHlen (dh.hash name)).filter
    (fun slot => dh.dhHash slot = .used offset)

/-- `ufsdirhash_delslot`. -/
def delslot (dh : Dirhash) (slot : Nat) : Option Dirhash :=
  let hash := update dh.dhHash slot .del
  match seek (fun v => v ≠ .del) dh.dhHlen hash dh.dhHlen slot with
  | none => none
  | some i =>
    -- If this is the end of a chain of deleted slots, remove them.
    if hash i = .empty then
      (clean dh.dhHlen dh.dhHlen (wrapDecr i dh.dhHlen) hash dh.dhHused).map
        (fun r => { dh with dhHash := r.1, dhHused := r.2 })
    else some { dh with dhHash := hash }

/-- An entry is put in a slot. -/
def putslot (dh : Dirhash) (slot offset : Nat) : Dirhash :=
  { dh with
    dhHash := update dh.dhHash slot (.used offset)
    dhHused := if dh.dhHash slot = .empty then dh.dhHused + 1 else dh.dhHused }

/-- An operation on a hash, if there is one. One that was recycled is freed first. -/
def IDirhash.acquire (h : IDirhash) (f : Dirhash → Option IDirhash) : Option IDirhash :=
  match h with
  | .hashed dh => f dh
  | .recycled _ => some .null
  | .null => some .null

/-- `ufsdirhash_add`. -/
def add (dh : Dirhash) (name : Name) (offset : Nat) : Option IDirhash :=
  -- If the usage gets too high then remove the hash entirely.
  if dh.dhHused ≥ dh.dhHlen * 3 / 4 then some .null
  else
    (seek (fun v => v = .empty ∨ v = .del) dh.dhHlen dh.dhHash dh.dhHlen (dh.hash name)).map
      (fun slot => .hashed (adjfree (putslot dh slot offset) offset (-directsiz name.length)))

/-- `ufsdirhash_remove`. -/
def remove (dh : Dirhash) (name : Name) (offset : Nat) : Option IDirhash :=
  (findslot dh name offset).bind (fun slot => (delslot dh slot).map
    (fun dh => .hashed (adjfree dh offset (directsiz name.length))))

/-- `ufsdirhash_move`. -/
def move (dh : Dirhash) (name : Name) (oldoff newoff : Nat) : Option IDirhash :=
  (findslot dh name oldoff).map (fun slot =>
    .hashed { dh with dhHash := update dh.dhHash slot (.used newoff) })

/-- `ufsdirhash_newblk`. -/
def newblk (dh : Dirhash) (offset : Nat) : Option IDirhash :=
  let block := offset / dirblksiz
  -- Out of space; must rebuild.
  if block ≥ dh.dhNblk then some .null
  else some (.hashed { dh with
    dhDirblks := block + 1
    dhBlkfree := update dh.dhBlkfree block (dirblksiz / diralign)
    dhFirstfree := if dh.dhFirstfree dhNfstats = none then
        update dh.dhFirstfree dhNfstats (some block)
      else dh.dhFirstfree })

/-- `ufsdirhash_dirtrunc`. -/
def dirtrunc (dh : Dirhash) (offset : Nat) : Option IDirhash :=
  let block := (offset + (dirblksiz - 1)) / dirblksiz
  if block < dh.dhNblk / 8 ∧ dh.dhNarrays > 1 then some .null
  else
    let firstfree := if (dh.dhFirstfree dhNfstats).any (fun i => i ≥ block) then
        update dh.dhFirstfree dhNfstats none
      else dh.dhFirstfree
    -- All blocks we're removing should be completely unused.
    if (List.range' block (dh.dhDirblks - block)).any
        (fun i => dh.dhBlkfree i ≠ dirblksiz / diralign) then none
    else if (List.range dhNfstats).any (fun i => (firstfree i).any (fun b => b ≥ block)) then none
    else some (.hashed { dh with dhDirblks := block, dhFirstfree := firstfree })

/-! ## Building -/

/-- What `ufsdirhash_build` finds around it: whether the hashes take more memory than they
    may and it cannot be helped, the sysctl value, the link count of the directory, whether
    there is memory for a hash, and where a new structure is. -/
structure Env where
  overLimit : Bool
  mindirhashsize : Int
  effnlink : Int
  memory : Bool
  fresh : UInt64

/-- The entries from `pos` on are added, until the end of the directory. -/
def buildLoop (D : Directory) : Nat → Nat → Dirhash → Option Dirhash
  | 0, _, _ => none
  | fuel + 1, pos, dh =>
    if pos < D.iSize then
      -- Corrupted directory.
      if D.dReclen pos = 0 ∨ D.dReclen pos > dirblksiz - pos % dirblksiz then none
      else if D.dIno pos ≠ 0 then
        match seek (fun v => v = .empty) dh.dhHlen dh.dhHash dh.dhHlen
            (dh.hash (D.dName pos (D.dNamlen pos))) with
        | none => none
        | some slot =>
          buildLoop D fuel (pos + D.dReclen pos)
            (adjfree (putslot dh slot pos) pos (-directsiz (D.dNamlen pos)))
      else buildLoop D fuel (pos + D.dReclen pos) dh
    else some dh

/-- A hash without entries. -/
def emptyHash (D : Directory) (self : UInt64) : Dirhash :=
  -- Allocate 50% more entries than this dir size could ever need.
  let nslots := (D.iSize / directsiz 1 * 3 + 1) / 2
  let narrays := (nslots + (dhNblkoff - 1)) / dhNblkoff
  let dirblocks := (D.iSize + (dirblksiz - 1)) / dirblksiz
  { self := self
    dhHash := fun _ => .empty
    dhNarrays := narrays
    dhHlen := narrays * dhNblkoff
    dhHused := 0
    dhBlkfree := fun _ => dirblksiz / diralign
    dhNblk := (dirblocks * 3 + 1) / 2
    dhDirblks := dirblocks
    dhFirstfree := fun i => if i = dhNfstats then some 0 else none
    dhSeqoff := none }

/-- `ufsdirhash_build`, with what it returns. -/
def build (D : Directory) (h : IDirhash) (env : Env) : IDirhash × Bool :=
  if env.overLimit then (h, false)
  else if (D.iSize : Int) < env.mindirhashsize ∨ D.ofsfmt ∨ env.effnlink = 0 then (.null, false)
  else match h with
    | .hashed dh => (.hashed dh, true)
    | .recycled self => start self
    | .null => start env.fresh
where
  start (self : UInt64) : IDirhash × Bool :=
    if env.memory = false then (.null, false)
    else match buildLoop D (D.iSize + 1) 0 (emptyHash D self) with
      | none => (.null, false)
      | some dh => (.hashed dh, true)

/-! ## Searching -/

/-- How a search ends. -/
inductive Found where
  /-- The entry is at this offset, behind the record at another one, if asked for. -/
  | entry (offset : Nat) (prevoff : Option Nat)
  | enoent
  /-- The caller should revert to a linear search. -/
  | ejustreturn
deriving DecidableEq

/-- `ufsdirhash_getprev`, from the record at `i` of the block on. -/
def getprevLoop (D : Directory) (blkoff entrypos : Nat) : Nat → Nat → Nat → Option Nat
  | 0, _, _ => none
  | fuel + 1, i, prevoff =>
    if i < entrypos then
      if D.dReclen (blkoff + i) = 0 ∨ i + D.dReclen (blkoff + i) > entrypos then none
      else getprevLoop D blkoff entrypos fuel (i + D.dReclen (blkoff + i)) (blkoff + i)
    else some prevoff

def getprev (D : Directory) (offset : Nat) : Option Nat :=
  let entrypos := offset % dirblksiz
  let blkoff := offset - entrypos
  if entrypos = 0 then none else getprevLoop D blkoff entrypos (dirblksiz + 1) 0 blkoff

/-- How a walk along a chain ends. -/
inductive Chased where
  | hit (offset : Nat)
  /-- Another name: go back and search normally. -/
  | mismatch
  | nothing
  | corrupted

/-- The search along a chain. It is normal, or starts at a slot that is probably the
    right one and gives up if it is not. `none` is a panic or a chain without end. -/
def chase (D : Directory) (dh : Dirhash) (name : Name) (sequential : Bool) : Nat → Nat → Option Chased
  | 0, _ => none
  | fuel + 1, slot =>
    match dh.dhHash slot with
    | .empty => some .nothing
    | .del => chase D dh name sequential fuel (wrapIncr slot dh.dhHlen)
    | .used offset =>
      if offset ≥ D.iSize then none
      else if D.dReclen offset = 0 ∨ D.dReclen offset > dirblksiz - offset % dirblksiz then
        some .corrupted
      else if D.dNamlen offset = name.length ∧ D.dName offset name.length = name then
        some (.hit offset)
      else if sequential then some .mismatch
      else chase D dh name sequential fuel (wrapIncr slot dh.dhHlen)

/-- The slot of the entry that follows the last one looked up, if it is in the chain of
    the name. -/
def seqslot (dh : Dirhash) (name : Name) : Option (Option Nat) :=
  match dh.dhSeqoff with
  | none => some none
  | some seqoff =>
    (seek (fun v => v = .used seqoff ∨ v = .empty) dh.dhHlen dh.dhHash dh.dhHlen (dh.hash name)).map
      (fun i => if dh.dhHash i = .used seqoff then some i else none)

/-- The search from the slot of the sequential offset, and then from the home of the name. -/
def chases (D : Directory) (dh : Dirhash) (name : Name) : Option Chased :=
  let normal := chase D dh name false dh.dhHlen (dh.hash name)
  match seqslot dh name with
  | none => none
  | some none => normal
  | some (some slot) => match chase D dh name true dh.dhHlen slot with
    | some .mismatch => normal
    | r => r

/-- `ufsdirhash_lookup`. -/
def lookup (D : Directory) (dh : Dirhash) (name : Name) (prev : Bool) : Option (Dirhash × Found) :=
  match chases D dh name with
  | none => none
  | some .mismatch => none
  | some .nothing => some (dh, .enoent)
  | some .corrupted => some (dh, .ejustreturn)
  | some (.hit offset) =>
    let found := { dh with dhSeqoff := some (offset + directsiz (D.dNamlen offset)) }
    if prev = false then some (found, .entry offset none)
    else if offset % dirblksiz = 0 then some (found, .entry offset (some offset))
    else match getprev D offset with
      | none => some (dh, .ejustreturn)
      | some prevoff => some (found, .entry offset (some prevoff))

end FreeBSDKern.Dir
