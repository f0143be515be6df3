import Mathlib

/-!
# Indirect Blocks

A file has twelve direct blocks and three trees of indirect blocks behind them, of
one, two and three levels. An indirect block is kept in the buffer cache of the file
under a negative number. Two pieces of code name the indirect blocks, each by its
own arithmetic: `ufs_getlbns` on the way to a block, and `ffs_truncate` with
`ffs_indirtrunc` on the way through a tree that is given back.

Block numbers are integers here. The largest that occurs is about the number of data
blocks of a file, which for a block of 64 kB stays below `2 ^ 43`.

`ffs_indirtrunc` is modelled by what it does to blocks: the buffers it reads, each
under the number it has for it, and the blocks it frees. Which block a pointer leads
to is what the indirect blocks held before the call, since the loop works on a
copy of them. A block that cannot be read ends its call.

## Main definitions

* `getlbns`: The path to a block, `ufs_getlbns`.
* `resolve`: The block a path leads to, as `ufs_bmaparray` follows it.
* `indirtrunc`, `truncate`: The numbers the truncation has for the blocks it reads.
-/

namespace FreeBSDKern.Ufs

/-- `NDADDR` and `NIADDR`. -/
def ndaddr : Nat := 12

def niaddr : Nat := 3

/-- `struct indir`. -/
structure Indir where
  lbn : Int
  off : Int
  deriving DecidableEq, Repr

inductive Errno where
  | efbig
  deriving DecidableEq, Repr

/-- The loop that finds the number of levels. It ends with its variables `i`,
    `blockcnt` and `bn`. -/
def levelLoop (nindir : Int) : Nat → Int → Int → Option (Nat × Int × Int)
  | 0, _, _ => none
  | i + 1, blockcnt, bn =>
    if bn < blockcnt * nindir then some (i + 1, blockcnt * nindir, bn)
    else levelLoop nindir i (blockcnt * nindir) (bn - blockcnt * nindir)

/-- The loop that writes down the path, for the rounds that are left. -/
def pathLoop (nindir realbn bn : Int) : Nat → Int → Int → List Indir
  | 0, _, _ => []
  | k + 1, metalbn, blockcnt =>
    -- If searching for a meta-data block, quit when found.
    if metalbn = realbn then []
    else
      let blockcnt := blockcnt / nindir
      let off := (bn / blockcnt) % nindir
      ⟨metalbn, off⟩ :: pathLoop nindir realbn bn k (metalbn - (-1 + off * blockcnt)) blockcnt

/-- `ufs_getlbns`. -/
def getlbns (nindir : Nat) (realbn : Int) : Except Errno (List Indir) :=
  let bn := if realbn < 0 then -realbn else realbn
  if bn < ndaddr then .ok []
  else match levelLoop nindir niaddr 1 (bn - ndaddr) with
    | none => .error .efbig
    | some (i, blockcnt, bn) =>
      let metalbn :=
        if 0 ≤ realbn then -(realbn - bn + niaddr - i) else -(-realbn - bn + niaddr - i)
      .ok (⟨metalbn, niaddr - i⟩ :: pathLoop nindir realbn bn (niaddr + 1 - i) metalbn blockcnt)

/-- Follow a path, from the pointers in the inode through those in the indirect
    blocks. -/
def resolve (ib : Nat → Nat) (bap : Nat → Nat → Nat) : List Indir → Nat
  | [] => 0
  | e :: path => path.foldl (fun dbn e => bap dbn e.off.toNat) (ib e.off.toNat)

/-- What a truncation does to blocks. -/
inductive Event where
  | getblk (lbn : Int) (dbn : Nat)
  | blkfree (nb : Nat)
  deriving DecidableEq, Repr

/-- `lbn_offset`. -/
def lbnOffset (nindir : Nat) : Nat → Int
  | 0 => 1
  | level + 1 => lbnOffset nindir level * nindir

/-- The loop of `ffs_indirtrunc` over the pointers that go, with the number of
    pointers it leaves and the value of `nlbn` behind it. -/
def freeLoop (bap : Nat → Nat) (factor last : Int) (child : Int → Nat → List Event) :
    Nat → Int → List Event × Nat × Int
  | 0, nlbn => ([], 0, nlbn)
  | i + 1, nlbn =>
    if last < i then
      let rest := freeLoop bap factor last child i (nlbn + factor)
      (if bap i = 0 then rest.1 else child nlbn (bap i) ++ .blkfree (bap i) :: rest.1, rest.2)
    else ([], i + 1, nlbn)

/-- The body of `ffs_indirtrunc`, given the call for the blocks below. -/
def indirtruncBody (nindir : Nat) (bap : Nat → Nat → Nat) (bad : Nat → Bool) (factor : Int)
    (child : Int → Nat → Int → List Event) (lbn : Int) (dbn : Nat) (lastbn : Int) : List Event :=
  let last := if 0 < lastbn then lastbn / factor else lastbn
  if bad dbn then [.getblk lbn dbn]
  else
    let loop := freeLoop (bap dbn) factor last (fun nlbn nb => child nlbn nb (-1)) nindir
      (lbn + 1 - ((nindir : Int) - 1) * factor)
    -- The last block is kept in part.
    let partialBlock := match loop.2.1 with
      | 0 => []
      | i + 1 =>
        if 0 ≤ lastbn ∧ bap dbn i ≠ 0 then child loop.2.2 (bap dbn i) (lastbn % factor) else []
    .getblk lbn dbn :: (loop.1 ++ partialBlock)

/-- `ffs_indirtrunc`. At `SINGLE` there are no calls for blocks below. -/
def indirtrunc (nindir : Nat) (bap : Nat → Nat → Nat) (bad : Nat → Bool) :
    Nat → Int → Nat → Int → List Event
  | 0 => indirtruncBody nindir bap bad (lbnOffset nindir 0) (fun _ _ _ => [])
  | level + 1 => indirtruncBody nindir bap bad (lbnOffset nindir (level + 1))
      (indirtrunc nindir bap bad level)

/-- `indir_lbn` of `ffs_truncate`, for `SINGLE`, `DOUBLE` and `TRIPLE`. -/
def indirLbn (nindir level : Nat) : Int :=
  let single : Int := -ndaddr
  let double := single - nindir - 1
  let triple := double - nindir * nindir - 1
  match level with
  | 0 => single
  | 1 => double
  | _ => triple

/-- `lastiblock` of `ffs_truncate`, before and after it is normalized. -/
def lastiblock (nindir : Nat) (lastblock : Int) (level : Nat) : Int :=
  let single := lastblock - ndaddr
  let double := single - nindir
  let triple := double - nindir * nindir
  match level with
  | 0 => single
  | 1 => double
  | _ => triple

def lastKept (nindir : Nat) (lastblock : Int) (level : Nat) : Int :=
  if lastiblock nindir lastblock level < 0 then -1 else lastiblock nindir lastblock level

/-- The trees of `ffs_truncate`, from the highest level down to the first that
    keeps a block. -/
def truncLevels (nindir : Nat) (ib : Nat → Nat) (bap : Nat → Nat → Nat) (bad : Nat → Bool)
    (lastblock : Int) : List Nat → List Event
  | [] => []
  | level :: levels =>
    (if ib level = 0 then []
      else indirtrunc nindir bap bad level (indirLbn nindir level) (ib level)
          (lastKept nindir lastblock level) ++
        if lastKept nindir lastblock level < 0 then [.blkfree (ib level)] else []) ++
    if 0 ≤ lastKept nindir lastblock level then []
    else truncLevels nindir ib bap bad lastblock levels

/-- The indirect blocks in `ffs_truncate`. -/
def truncate (nindir : Nat) (ib : Nat → Nat) (bap : Nat → Nat → Nat) (bad : Nat → Bool)
    (lastblock : Int) : List Event :=
  truncLevels nindir ib bap bad lastblock [2, 1, 0]

end FreeBSDKern.Ufs
