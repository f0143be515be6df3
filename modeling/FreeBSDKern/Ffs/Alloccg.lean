import FreeBSDKern.Ffs.Blocks
import FreeBSDKern.Ffs.Cluster

/-!
# Allocating and Freeing in a Cylinder Group

The functions that change the map of free fragments: a whole block is taken and
may be broken up, some fragments are taken from a run or put to the end of one
that is there, a row of blocks is taken at once, and blocks or fragments are
given back. Each of them changes the counts in the group by hand, and by as much
the summary of the group and the total that are kept in memory.

Sizes are in bytes, and a block has `frag` fragments of `fsize` bytes. Where a
group cannot be read, or its magic number is wrong, nothing happens. A panic is
`none`, and block 0 stands for no block. What depends on soft updates, and times,
are left out.

## Main definitions

* `Layout`, `Group`, `Vol`: The file system, its groups and its summaries.
* `alloccgblk`, `alloccg`, `fragextend`, `ffsClusteralloc`, `blkfreeCg`: The
  functions of the source.
* `AllocOp`, `execAlloc`: A call of one of them.
-/

namespace FreeBSDKern.Ffs

open Function

/-- The fields of the file system that are used. -/
structure Layout extends Fs where
  ufs2 : Bool
  /-- The number of groups. -/
  ncg : Nat
  /-- The bytes of a fragment. -/
  fsize : Nat
  size : Nat
  oldCgoffset : Nat
  oldCgmask : BitVec 32
  dblkno : Nat
  metaspace : Nat

def Layout.bsize (fs : Layout) : Nat := fs.frag * fs.fsize

/-- `numfrags`. -/
def Layout.numfrags (fs : Layout) (loc : Nat) : Nat := loc / fs.fsize

def Layout.cgbase (fs : Layout) (c : Nat) : Nat := fs.fpg * c

def Layout.cgstart (fs : Layout) (c : Nat) : Nat :=
  if fs.ufs2 then fs.cgbase c
  else fs.cgbase c + fs.oldCgoffset * (BitVec.ofNat 32 c &&& ~~~fs.oldCgmask).toNat

/-- `cgmeta`, the first data block. -/
def Layout.cgmeta (fs : Layout) (c : Nat) : Nat := fs.cgstart c + fs.dblkno

/-- `cgdata`, the data zone. -/
def Layout.cgdata (fs : Layout) (c : Nat) : Nat := fs.cgmeta c + fs.metaspace

structure Group where
  cg : Cg
  cluster : Cluster
  rotor : Nat

structure Csum where
  nbfree : Int
  nffree : Int

/-- The groups, `fs_cs` and `fs_cstotal`. -/
structure Vol where
  groups : Nat → Group
  cs : Nat → Csum
  cstotal : Csum

def Csum.add (c : Csum) (nbfree nffree : Int) : Csum where
  nbfree := c.nbfree + nbfree
  nffree := c.nffree + nffree

/-- A group is written back, and the summary of the group and the total change by
    as much as its own counts. -/
def Vol.put (v : Vol) (cgx : Nat) (g : Group) (nbfree nffree : Int) : Vol where
  groups := update v.groups cgx g
  cs := update v.cs cgx ((v.cs cgx).add nbfree nffree)
  cstotal := v.cstotal.add nbfree nffree

/-- Set `n` bits from `bno` on. -/
def setBits (map : Nat → BitVec 8) (bno : Nat) : Nat → Nat → BitVec 8
  | 0 => map
  | n + 1 => setBits (setMapBit map bno) (bno + 1) n

/-- Clear `n` bits from `bno` on. -/
def clrBits (map : Nat → BitVec 8) (bno : Nat) : Nat → Nat → BitVec 8
  | 0 => map
  | n + 1 => clrBits (clrMapBit map bno) (bno + 1) n

/-- `frsum[i] += cnt`. -/
def bumpSum (frsum : Nat → Int) (i : Nat) (cnt : Int) : Nat → Int :=
  update frsum i (frsum i + cnt)

section

variable (scanc : Nat → (Nat → BitVec 8) → (BitVec 8 → BitVec 8) → BitVec 8 → Nat)

/-- `ffs_alloccgblk` once the block is found. If the caller did not want the whole
    of it, the last fragments are freed here. -/
def takeBlock (fs : Layout) (v : Vol) (cgx : Nat) (g : Group) (bno size : Nat) : Nat × Vol :=
  let blkno := bno / fs.frag
  let map := clrblock fs.frag g.cg.blksfree blkno
  let cluster := clusteracct g.cluster blkno (-1)
  let nbfree := g.cg.nbfree - 1
  let size := fs.numfrags size
  if size ≠ fs.frag then
    let i := fs.frag - size
    let map := setBits map ((fs.cgbase cgx + bno) % fs.fpg + size) i
    let cg := { g.cg with
      blksfree := map, nbfree := nbfree, nffree := g.cg.nffree + i, frsum := bumpSum g.cg.frsum i 1 }
    (fs.cgbase cgx + bno, v.put cgx { g with cg := cg, cluster := cluster } (-1) i)
  else
    let cg := { g.cg with blksfree := map, nbfree := nbfree }
    (fs.cgbase cgx + bno, v.put cgx { g with cg := cg, cluster := cluster } (-1) 0)

/-- Where `ffs_alloccgblk` looks first. There is no preference where it is zero. -/
def blockPref (fs : Layout) (g : Group) (cgx bpref : Nat) : Nat :=
  if bpref = 0 then fs.cgbase cgx + g.rotor + fs.frag
  else if bpref / fs.fpg ≠ cgx then
    if bpref < fs.cgdata (bpref / fs.fpg) then fs.cgmeta cgx else fs.cgdata cgx
  else bpref

/-- `ffs_alloccgblk`. -/
def alloccgblk (fs : Layout) (v : Vol) (cgx bpref size : Nat) : Option (Nat × Vol) :=
  let g := v.groups cgx
  let bpref := blockPref fs g cgx bpref
  let bno := bpref / fs.frag * fs.frag % fs.fpg
  if isblock fs.frag g.cg.blksfree (bno / fs.frag) then some (takeBlock fs v cgx g bno size)
  else
    match mapsearch scanc fs.toFs g.cg bpref fs.frag with
    | .error _ => none
    | .ok (bno, cg) =>
      let rotor := if bno ≥ fs.cgdata cgx % fs.fpg then bno else g.rotor
      some (takeBlock fs v cgx { g with cg := cg, rotor := rotor } bno size)

/-- `ffs_alloccg`. -/
def alloccg (fs : Layout) (v : Vol) (readable : Bool) (cgx bpref size rsize : Nat) :
    Option (Nat × Vol) :=
  let g := v.groups cgx
  if (v.cs cgx).nbfree = 0 ∧ size = fs.bsize then some (0, v)
  else if readable = false ∨ (g.cg.nbfree = 0 ∧ size = fs.bsize) then some (0, v)
  else if size = fs.bsize then alloccgblk scanc fs v cgx bpref rsize
  else
    let frags := fs.numfrags size
    let allocsiz := allocsizLoop g.cg.frsum fs.frag fs.frag frags
    if allocsiz = fs.frag then
      -- No fragments are available, so a block is allocated and hacked up.
      if g.cg.nbfree = 0 then some (0, v) else alloccgblk scanc fs v cgx bpref rsize
    else
      match mapsearch scanc fs.toFs g.cg bpref allocsiz with
      | .error _ => none
      | .ok (bno, cg) =>
        let frsum := bumpSum cg.frsum allocsiz (-1)
        let frsum := if frags ≠ allocsiz then bumpSum frsum (allocsiz - frags) 1 else frsum
        let cg := { cg with
          blksfree := clrBits cg.blksfree bno frags, nffree := cg.nffree - frags, frsum := frsum }
        some (fs.cgbase cgx + bno, v.put cgx { g with cg := cg } 0 (-frags))

/-- The fragments behind a fragment that are free, counted from its start. -/
def freeEnd (map : Nat → BitVec 8) (bno : Nat) : Nat → Nat → Nat
  | 0, i => i
  | n + 1, i => if mapBit map (bno + i) = false then i else freeEnd map bno n (i + 1)

/-- `ffs_fragextend`. -/
def fragextend (fs : Layout) (v : Vol) (readable : Bool) (cgx bprev osize nsize : Nat) : Nat × Vol :=
  let g := v.groups cgx
  let frags := fs.numfrags nsize
  let old := fs.numfrags osize
  let bbase := bprev % fs.frag
  if (v.cs cgx).nffree < fs.numfrags (nsize - osize) then (0, v)
  else if bbase > (bprev + frags - 1) % fs.frag then
    -- It cannot be extended across a block boundary.
    (0, v)
  else if readable = false then (0, v)
  else
    let bno := bprev % fs.fpg
    if freeEnd g.cg.blksfree bno (frags - old) old < frags then (0, v)
    else
      -- The count on the fragment that is extended into, and on what remains of it.
      let i := freeEnd g.cg.blksfree bno (fs.frag - bbase - frags) frags
      let frsum := bumpSum g.cg.frsum (i - old) (-1)
      let frsum := if i ≠ frags then bumpSum frsum (i - frags) 1 else frsum
      let cg := { g.cg with
        blksfree := clrBits g.cg.blksfree (bno + old) (frags - old),
        nffree := g.cg.nffree - (frags - old : Nat), frsum := frsum }
      (bprev, v.put cgx { g with cg := cg } 0 (-(frags - old : Nat)))

/-- The blocks of a cluster are taken one by one, each where it is expected. -/
def takeCluster (fs : Layout) (cgx bno : Nat) : Nat → Nat → Vol → Option Vol
  | 0, _, v => some v
  | n + 1, i, v =>
    match alloccgblk scanc fs v cgx (bno + i) fs.bsize with
    | none => none
    | some (got, v) => if got ≠ bno + i then none else takeCluster fs cgx bno n (i + fs.frag) v

/-- `ffs_clusteralloc`. -/
def ffsClusteralloc (fs : Layout) (v : Vol) (readable : Bool) (cgx bpref len : Nat) :
    Option (Nat × Vol) :=
  let g := v.groups cgx
  let bpref := (if bpref / fs.fpg ≠ cgx then fs.cgdata cgx else bpref / fs.frag * fs.frag) %
    fs.fpg / fs.frag
  match clusteralloc g.cluster readable bpref len with
  | .skipped => some (0, v)
  | .unreadable => some (0, v)
  | .noSummary maxcluster =>
    let g := { g with cluster := { g.cluster with maxcluster := maxcluster } }
    some (0, v.put cgx g 0 0)
  | .notFound => some (0, v)
  | .found got =>
    let first := (got - len + 1).toNat
    if ¬ ∀ i < len, isblock fs.frag g.cg.blksfree (first + i) = true then none
    else
      let bno := fs.cgbase cgx + first * fs.frag
      if bno / fs.fpg ≠ cgx then none
      else (takeCluster scanc fs cgx bno len 0 v).map (fun v => (bno, v))

/-- The loop of `ffs_blkfree_cg` that frees fragments, with its panic. -/
def freeFrags (map : Nat → BitVec 8) (bno : Nat) : Nat → Option (Nat → BitVec 8)
  | 0 => some map
  | n + 1 => if mapBit map bno = true then none else freeFrags (setMapBit map bno) (bno + 1) n

/-- `ffs_blkfree_cg`, on a disk and not on a snapshot. -/
def blkfreeCg (fs : Layout) (v : Vol) (readable : Bool) (bno size : Nat) : Option Vol :=
  let cgx := bno / fs.fpg
  let g := v.groups cgx
  if bno % 2 ^ 32 ≥ fs.size then some v
  else if readable = false then some v
  else
    let cgbno := bno % fs.fpg
    if size = fs.bsize then
      let fragno := cgbno / fs.frag
      if isfreeblock fs.frag g.cg.blksfree fragno = false then none
      else
        let cg := { g.cg with
          blksfree := setblock fs.frag g.cg.blksfree fragno, nbfree := g.cg.nbfree + 1 }
        some (v.put cgx { g with cg := cg, cluster := clusteracct g.cluster fragno 1 } 1 0)
    else
      let bbase := cgbno - cgbno % fs.frag
      let frsum := fragacct fs.frag (blkmap fs.frag g.cg.blksfree bbase) g.cg.frsum (-1)
      let frags := fs.numfrags size
      match freeFrags g.cg.blksfree cgbno frags with
      | none => none
      | some map =>
        let frsum := fragacct fs.frag (blkmap fs.frag map bbase) frsum 1
        let fragno := bbase / fs.frag
        if isblock fs.frag map fragno then
          -- A complete block has been reassembled.
          let cg := { g.cg with
            blksfree := map, frsum := frsum, nbfree := g.cg.nbfree + 1,
            nffree := g.cg.nffree + frags - fs.frag }
          some (v.put cgx { g with cg := cg, cluster := clusteracct g.cluster fragno 1 } 1
            (frags - fs.frag))
        else
          let cg := { g.cg with
            blksfree := map, frsum := frsum, nffree := g.cg.nffree + frags }
          some (v.put cgx { g with cg := cg } 0 frags)

/-- A call, and whether the group can be read in it. -/
inductive AllocOp where
  | alloccg (readable : Bool) (cgx bpref size rsize : Nat)
  | alloccgblk (cgx bpref size : Nat)
  | fragextend (readable : Bool) (cgx bprev osize nsize : Nat)
  | clusteralloc (readable : Bool) (cgx bpref len : Nat)
  | blkfree (readable : Bool) (bno size : Nat)

def execAlloc (fs : Layout) (v : Vol) : AllocOp → Option Vol
  | .alloccg readable cgx bpref size rsize =>
    (alloccg scanc fs v readable cgx bpref size rsize).map Prod.snd
  | .alloccgblk cgx bpref size => (alloccgblk scanc fs v cgx bpref size).map Prod.snd
  | .fragextend readable cgx bprev osize nsize =>
    some (fragextend fs v readable cgx bprev osize nsize).2
  | .clusteralloc readable cgx bpref len =>
    (ffsClusteralloc scanc fs v readable cgx bpref len).map Prod.snd
  | .blkfree readable bno size => blkfreeCg fs v readable bno size

end

end FreeBSDKern.Ffs
