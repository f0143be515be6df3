import FreeBSDKern.Ffs.Blocks
import FreeBSDKern.Ffs.Hashalloc
import FreeBSDKern.Lib.WordMap

/-!
# Allocating an Inode in a Cylinder Group

`ffs_nodealloccg` takes the inode it is asked for, or the next one that is free
from the rotor on. On UFS2 the inodes of a group are initialised when they are
first needed, a block of them at a time. For that the buffer of the group is
given back while the inode block is written, and the group is read again; other
threads may have worked on it in the meantime, and the search starts once more.
If another thread holds the inode block, the allocation waits for it and begins
from the very start.

A read of the group may fail. The one at the start then returns zero: nothing has
been allocated, and the caller goes on with another group. The one behind the
initialisation returns the error itself, and to the caller this is the number of
an inode.

A turn is what happens around one read of the group. Its threads may change the
inodes in any way that keeps the rotors inside their groups and inode 0 in use.
The allocation is followed from turn to turn until it returns, with the inodes as
they were when the group was last read. What depends on soft updates, and times,
are left out. `memcchr` is a routine of the machine layer, which finds the first
byte that differs from another one. `NBBY` is 8.

## Main definitions

* `Inodes`, `Turn`: The state, and what happens around a read.
* `attempt`: The search and the allocation in a group that has been read.
* `nodealloccg`: The whole, along a list of turns.
* `Promised`: What a returned number says.
* `RereadsOk`: No read behind an initialisation fails.

## Theorems

* `findInode_spec`: The search finds a free inode of the group.
* `attempt_spec`: What is done once the group is locked.
* `nodealloccg_turn`: How a call goes on from turn to turn.
* `nodealloccg_ends`: With no other thread about a call comes to an end.
* `nodealloccg_promised_iff`: The number that is returned says what it should
  exactly if no read behind an initialisation fails.
-/

namespace FreeBSDKern.Ffs

open Lib Function

/-- The fields of the file system that are used. -/
structure InoFs where
  /-- The magic number is that of UFS2. -/
  ufs2 : Bool
  ipg : Nat
  /-- `INOPB`, the inodes in a block. -/
  inopb : Nat

structure InoCsum where
  ndir : Int
  nifree : Int

/-- The fields of a cylinder group that are used. -/
structure InoCg where
  magic : Nat
  cs : InoCsum
  irotor : Nat
  niblk : Nat
  initediblk : Nat
  /-- The map of used inodes, byte by byte. -/
  inosused : Nat → BitVec 8

/-- The cylinder groups and the summaries in memory. -/
structure Inodes where
  cgs : Nat → InoCg
  cs : Nat → InoCsum
  cstotal : InoCsum

def cgMagic : Nat := 0x090255

/-- The lowest clear bit of a byte, `ffs(~*loc) - 1` with the byte as an `int`. -/
def lowClear (x : BitVec 8) : Nat := WordMap.ffs (~~~(x.setWidth 32)) - 1

/-- Some inodes of the block are not initialised yet. -/
def NeedsInit (fs : InoFs) (c : InoCg) (ipref : Nat) : Prop :=
  fs.ufs2 = true ∧ ipref + fs.inopb > c.initediblk ∧ c.initediblk < c.niblk

instance (fs : InoFs) (c : InoCg) (ipref : Nat) : Decidable (NeedsInit fs c ipref) :=
  inferInstanceAs (Decidable (_ ∧ _))

/-- One inode less, and one directory more where the mode says so. -/
def InoCsum.take (cs : InoCsum) (mode : Nat) : InoCsum where
  nifree := cs.nifree - 1
  ndir := if mode &&& 0o170000 = 0o040000 then cs.ndir + 1 else cs.ndir

/-- The allocation, once the inode is found. -/
def takeInode (cg mode ipref : Nat) (s : Inodes) : Inodes where
  cgs := update s.cgs cg
    { s.cgs cg with
        irotor := ipref, inosused := setMapBit (s.cgs cg).inosused ipref,
        cs := (s.cgs cg).cs.take mode }
  cs := update s.cs cg ((s.cs cg).take mode)
  cstotal := s.cstotal.take mode

/-- The number of an inode, of type `ino_t`. -/
def inoNumber (fs : InoFs) (cg ipref : Nat) : Nat := (cg * fs.ipg % 2 ^ 32 + ipref) % 2 ^ 32

/-- What happens around a read of the group. -/
structure Turn where
  /-- What other threads do before the group is locked. -/
  others : Inodes → Inodes
  /-- The result of the read. -/
  error : Int
  /-- Another thread holds the inode block that is to be initialised. -/
  busy : Bool
  /-- What other threads do while it is waited for. -/
  meanwhile : Inodes → Inodes

inductive Attempt where
  | done (v : Int) (s : Inodes)
  | panicked
  /-- The inode has been found, but its block is to be initialised. -/
  | initialise (ipref : Nat)

inductive Outcome where
  /-- The number that is returned, the inodes when the group was last locked and
      in the end. -/
  | returned (v : Int) (before after : Inodes)
  /-- `ffs_nodealloccg: map corrupted`. -/
  | panicked

section

variable (memcchr : (Nat → BitVec 8) → BitVec 8 → Nat → Option Nat)

/-- The search for a free inode. There is no preference where it is zero. -/
def findInode (fs : InoFs) (c : InoCg) (ipref : Nat) : Option Nat :=
  if ipref ≠ 0 ∧ mapBit c.inosused (ipref % fs.ipg) = false then some (ipref % fs.ipg)
  else
    let start := c.irotor / 8
    let len := (fs.ipg - c.irotor + 7) / 8
    match memcchr (fun i => c.inosused (start + i)) 0xff len with
    | some loc => some ((start + loc) * 8 + lowClear (c.inosused (start + loc)))
    | none =>
      match memcchr c.inosused 0xff (start + 1) with
      | some loc => some (loc * 8 + lowClear (c.inosused loc))
      | none => none

/-- From `restart` on, in a group that has been read. -/
def attempt (fs : InoFs) (cg mode ipref : Nat) (s : Inodes) : Attempt :=
  let c := s.cgs cg
  if c.magic ≠ cgMagic ∨ c.cs.nifree = 0 then .done 0 s
  else
    match findInode memcchr fs c ipref with
    | none => .panicked
    | some ipref =>
      if NeedsInit fs c ipref then .initialise ipref
      else .done (inoNumber fs cg ipref) (takeInode cg mode ipref s)

/-- After the inode block is written: leave the group unchanged if another thread
    has updated it. -/
def claimBlock (fs : InoFs) (cg old : Nat) (s : Inodes) : Inodes :=
  if (s.cgs cg).initediblk = old then
    let c := { s.cgs cg with initediblk := (s.cgs cg).initediblk + fs.inopb }
    { s with cgs := update s.cgs cg c }
  else s

/-- `ffs_nodealloccg`, along a list of turns. It begins at `check_nifree`, or with
    the read behind an initialisation, which knows the old `cg_initediblk`. The
    turns that are left are returned too. -/
def nodealloccg (fs : InoFs) (cg mode : Nat) :
    List Turn → Option Nat → Nat → Inodes → Option (Outcome × List Turn)
  | [], again, _, s =>
    if again = none ∧ (s.cs cg).nifree = 0 then some (.returned 0 s s, []) else none
  | t :: turns, again, ipref, s =>
    if again = none ∧ (s.cs cg).nifree = 0 then some (.returned 0 s s, t :: turns)
    else
      let s := t.others s
      if t.error ≠ 0 then
        match again with
        | none => some (.returned 0 s s, turns)
        | some _ => some (.returned t.error s s, turns)
      else
        let s := match again with
          | none => s
          | some old => claimBlock fs cg old s
        match attempt memcchr fs cg mode ipref s with
        | .done v s' => some (.returned v s s', turns)
        | .panicked => some (.panicked, turns)
        | .initialise ipref =>
          if t.busy then nodealloccg fs cg mode turns none ipref (t.meanwhile s)
          else nodealloccg fs cg mode turns (some (s.cgs cg).initediblk) ipref s

/-- What `memcchr` is relied upon for. -/
structure Skips : Prop where
  found : ∀ s c n i, memcchr s c n = some i → i < n ∧ s i ≠ c ∧ ∀ j < i, s j = c
  none : ∀ s c n, memcchr s c n = none → ∀ j < n, s j = c

end

/-- The maps and the counters are the same. -/
def SameMaps (s s' : Inodes) : Prop :=
  (∀ g, (s'.cgs g).inosused = (s.cgs g).inosused ∧ (s'.cgs g).cs = (s.cgs g).cs) ∧
    s'.cs = s.cs ∧ s'.cstotal = s.cstotal

/-- The number is that of an inode of the group which has been allocated, and of
    no other. -/
def Allocated (fs : InoFs) (cg : Nat) (ino : Int) (s s' : Inodes) : Prop :=
  ∃ i < fs.ipg, ino = cg * fs.ipg + i ∧
    mapBit (s.cgs cg).inosused i = false ∧ mapBit (s'.cgs cg).inosused i = true ∧
    (∀ j, j ≠ i → mapBit (s'.cgs cg).inosused j = mapBit (s.cgs cg).inosused j) ∧
    (∀ g, g ≠ cg → s'.cgs g = s.cgs g) ∧ (s'.cgs cg).cs.nifree = (s.cgs cg).cs.nifree - 1 ∧
    (s'.cs cg).nifree = (s.cs cg).nifree - 1 ∧ s'.cstotal.nifree = s.cstotal.nifree - 1 ∧
    (fs.ufs2 = true → i < (s'.cgs cg).initediblk ∨ (s'.cgs cg).niblk ≤ (s'.cgs cg).initediblk)

/-- What a returned number says: something other than zero has been allocated, and
    with zero nothing has changed. -/
def Promised (fs : InoFs) (cg : Nat) (v : Int) (s s' : Inodes) : Prop :=
  (v ≠ 0 → Allocated fs cg v s s') ∧ (v = 0 → SameMaps s s')

/-- No read behind an initialisation fails. A turn has one before it unless the
    inode block was busy in the turn before. -/
def RereadsOk : Bool → List Turn → Prop
  | _, [] => True
  | again, t :: turns => (again = true → t.error = 0) ∧ RereadsOk (!t.busy) turns

/-- A group has inodes, in whole bytes of its map, and a block has some. -/
structure InoFs.Ok (fs : InoFs) : Prop where
  ipg : 0 < fs.ipg
  bytes : 8 ∣ fs.ipg
  inopb : 0 < fs.inopb

/-- The rotors are inside their groups, and inode 0 is in use. -/
structure Sane (fs : InoFs) (s : Inodes) : Prop where
  irotor : ∀ g, (s.cgs g).irotor < fs.ipg
  reserved : mapBit (s.cgs 0).inosused 0 = true

/-- Other threads keep the inodes sane. -/
def Turn.Fair (fs : InoFs) (t : Turn) : Prop :=
  (∀ s, Sane fs s → Sane fs (t.others s)) ∧ ∀ s, Sane fs s → Sane fs (t.meanwhile s)

/-- Other threads leave the maps and the counters alone. -/
def Turn.Quiet (t : Turn) : Prop :=
  (∀ s, SameMaps s (t.others s)) ∧ ∀ s, SameMaps s (t.meanwhile s)

-- A byte that is not full has a clear bit, and the scan finds it.
theorem lowClear_spec (x : BitVec 8) (h : x ≠ 0xff) :
    lowClear x < 8 ∧ x.getLsbD (lowClear x) = false := by
  have hclear : ∃ j < 8, x.getLsbD j = false := by
    by_contra hnone
    refine h (BitVec.eq_of_getLsbD_eq (fun j hj => ?_))
    have hset : x.getLsbD j = true := by
      by_contra hno
      exact hnone ⟨j, hj, Bool.eq_false_iff.mpr hno⟩
    have hall : ∀ j < 8, (0xff : BitVec 8).getLsbD j = true := by decide
    rw [hset, hall j hj]
  have hbits : ∀ j < 32, (~~~(x.setWidth 32)).getLsbD j = !x.getLsbD j := by
    intro j hj
    rw [BitVec.getLsbD_not, decide_eq_true hj, Bool.true_and, BitVec.getLsbD_setWidth,
      decide_eq_true hj, Bool.true_and]
  rcases hclear with ⟨j, hj, hbit⟩
  have hne : ~~~(x.setWidth 32) ≠ 0#32 := by
    intro hzero
    have := hbits j (by omega)
    rw [hzero, hbit, BitVec.getLsbD_zero] at this
    exact Bool.false_ne_true this
  rcases WordMap.ffs_spec _ hne with ⟨k, hk, hffs, hset, hlow⟩
  have hkj : k ≤ j := by
    by_contra hlt
    have := hlow j (by omega)
    rw [hbits j (by omega), hbit] at this
    exact Bool.false_ne_true this.symm
  have hlowk : lowClear x = k := by
    rw [lowClear, hffs, Nat.add_sub_cancel]
  rw [hlowk]
  refine ⟨by omega, ?_⟩
  rw [hbits k hk] at hset
  exact Bool.not_eq_true' _ ▸ hset

variable {memcchr : (Nat → BitVec 8) → BitVec 8 → Nat → Option Nat}

variable {fs : InoFs} {ipref i cg mode : Nat} {s : Inodes} {v : Int} {t : Turn}

theorem findInode_spec (hmem : Skips memcchr) (hfs : fs.Ok) {c : InoCg} (hrotor : c.irotor < fs.ipg)
    (h : findInode memcchr fs c ipref = some i) : i < fs.ipg ∧ mapBit c.inosused i = false := by
  have hbytes := hfs.bytes
  unfold findInode at h
  by_cases hpref : ipref ≠ 0 ∧ mapBit c.inosused (ipref % fs.ipg) = false
  · rw [if_pos hpref, Option.some.injEq] at h
    rw [← h]
    exact ⟨Nat.mod_lt _ hfs.ipg, hpref.2⟩
  rw [if_neg hpref] at h
  simp only at h
  cases hfirst : memcchr (fun i => c.inosused (c.irotor / 8 + i)) 0xff
      ((fs.ipg - c.irotor + 7) / 8) with
  | some loc =>
    rw [hfirst] at h
    simp only [Option.some.injEq] at h
    rcases hmem.found _ _ _ _ hfirst with ⟨hloc, hne, -⟩
    rcases lowClear_spec _ hne with ⟨hlt, hbit⟩
    rw [← h, mapBit_byte c.inosused hlt]
    exact ⟨by omega, hbit⟩
  | none =>
    rw [hfirst] at h
    simp only at h
    cases hsecond : memcchr c.inosused 0xff (c.irotor / 8 + 1) with
    | some loc =>
      rw [hsecond] at h
      simp only [Option.some.injEq] at h
      rcases hmem.found _ _ _ _ hsecond with ⟨hloc, hne, -⟩
      rcases lowClear_spec _ hne with ⟨hlt, hbit⟩
      rw [← h, mapBit_byte c.inosused hlt]
      exact ⟨by omega, hbit⟩
    | none =>
      rw [hsecond] at h
      cases h

theorem SameMaps.refl (s : Inodes) : SameMaps s s := ⟨fun _ => ⟨rfl, rfl⟩, rfl, rfl⟩

theorem SameMaps.trans {s' s'' : Inodes} (h : SameMaps s s') (h' : SameMaps s' s'') :
    SameMaps s s'' :=
  ⟨fun g => ⟨(h'.1 g).1.trans (h.1 g).1, (h'.1 g).2.trans (h.1 g).2⟩, h'.2.1.trans h.2.1,
    h'.2.2.trans h.2.2⟩

theorem SameMaps.claimBlock (fs : InoFs) (cg old : Nat) (s : Inodes) :
    SameMaps s (claimBlock fs cg old s) := by
  unfold Ffs.claimBlock
  by_cases hold : (s.cgs cg).initediblk = old
  · rw [if_pos hold]
    refine ⟨fun g => ?_, rfl, rfl⟩
    by_cases hg : g = cg
    · subst hg
      simp only [update_self, and_self]
    · simp only [update_of_ne hg, and_self]
  · rw [if_neg hold]
    exact SameMaps.refl s

theorem Sane.claimBlock (h : Sane fs s) (cg old : Nat) : Sane fs (claimBlock fs cg old s) := by
  refine ⟨fun g => ?_, ?_⟩
  · unfold Ffs.claimBlock
    by_cases hold : (s.cgs cg).initediblk = old
    · rw [if_pos hold]
      by_cases hg : g = cg
      · subst hg
        simp only [update_self]
        exact h.irotor g
      · simp only [update_of_ne hg]
        exact h.irotor g
    · rw [if_neg hold]
      exact h.irotor g
  · rw [((SameMaps.claimBlock fs cg old s).1 0).1]
    exact h.reserved

/-- Taking a free inode of the group. -/
theorem takeInode_allocated (hfs : fs.Ok) (hcg : (cg + 1) * fs.ipg ≤ 2 ^ 32) (mode : Nat)
    (hi : i < fs.ipg) (hclear : mapBit (s.cgs cg).inosused i = false)
    (hinit : ¬ NeedsInit fs (s.cgs cg) i) :
    Allocated fs cg (inoNumber fs cg i) s (takeInode cg mode i s) := by
  have hinopb := hfs.inopb
  refine ⟨i, hi, ?_, hclear, ?_, fun j hj => ?_, fun g hg => ?_, ?_, ?_, ?_, fun hufs2 => ?_⟩
  · rw [Nat.add_mul, Nat.one_mul] at hcg
    rw [inoNumber, Nat.mod_eq_of_lt (by omega : cg * fs.ipg < 2 ^ 32), Nat.mod_eq_of_lt (by omega)]
    push_cast
    rfl
  · simp only [takeInode, update_self]
    rw [mapBit_setMapBit, decide_eq_true rfl, Bool.true_or]
  · simp only [takeInode, update_self]
    rw [mapBit_setMapBit, decide_eq_false hj, Bool.false_or]
  · simp only [takeInode, update_of_ne hg]
  · simp only [takeInode, update_self, InoCsum.take]
  · simp only [takeInode, update_self, InoCsum.take]
  · simp only [takeInode, InoCsum.take]
  simp only [takeInode, update_self]
  by_contra hno
  exact hinit ⟨hufs2, by omega, by omega⟩

theorem Sane.takeInode (h : Sane fs s) (cg mode : Nat) (hi : i < fs.ipg) :
    Sane fs (takeInode cg mode i s) := by
  refine ⟨fun g => ?_, ?_⟩
  · by_cases hg : g = cg
    · simp only [Ffs.takeInode, hg, update_self]
      exact hi
    · simp only [Ffs.takeInode, update_of_ne hg]
      exact h.irotor g
  by_cases hg : 0 = cg
  · simp only [Ffs.takeInode, ← hg, update_self]
    rw [mapBit_setMapBit, h.reserved, Bool.or_true]
  · simp only [Ffs.takeInode, update_of_ne hg]
    exact h.reserved

theorem attempt_spec (hmem : Skips memcchr) (hfs : fs.Ok) (hcg : (cg + 1) * fs.ipg ≤ 2 ^ 32)
    {s' : Inodes} (hs : Sane fs s) (h : attempt memcchr fs cg mode ipref s = .done v s') :
    Promised fs cg v s s' ∧ Sane fs s' := by
  unfold attempt at h
  simp only at h
  by_cases hnone : (s.cgs cg).magic ≠ cgMagic ∨ (s.cgs cg).cs.nifree = 0
  · rw [if_pos hnone, Attempt.done.injEq] at h
    rcases h with ⟨rfl, rfl⟩
    exact ⟨⟨fun hne => absurd rfl hne, fun _ => SameMaps.refl s⟩, hs⟩
  rw [if_neg hnone] at h
  cases hfind : findInode memcchr fs (s.cgs cg) ipref with
  | none =>
    rw [hfind] at h
    cases h
  | some i =>
    rw [hfind] at h
    simp only at h
    by_cases hinit : NeedsInit fs (s.cgs cg) i
    · rw [if_pos hinit] at h
      cases h
    rw [if_neg hinit, Attempt.done.injEq] at h
    rcases h with ⟨rfl, rfl⟩
    rcases findInode_spec hmem hfs (hs.irotor cg) hfind with ⟨hi, hclear⟩
    have halloc := takeInode_allocated hfs hcg mode hi hclear hinit
    refine ⟨⟨fun _ => halloc, fun hzero => ?_⟩, hs.takeInode cg mode hi⟩
    -- Inode 0 is in use, so no other one has its number.
    have hipg := hfs.ipg
    rw [Nat.add_mul, Nat.one_mul] at hcg
    rw [inoNumber, Nat.mod_eq_of_lt (by omega : cg * fs.ipg < 2 ^ 32),
      Nat.mod_eq_of_lt (by omega), Int.natCast_eq_zero] at hzero
    have hcg0 : cg = 0 := by
      rcases Nat.mul_eq_zero.mp (by omega : cg * fs.ipg = 0) with hcg0 | hipg0
      · exact hcg0
      · omega
    have hi0 : i = 0 := by omega
    rw [hcg0, hi0, hs.reserved] at hclear
    exact absurd hclear (Bool.false_ne_true ∘ Eq.symm)

/-- The group after a read that has not failed. -/
def ReadBack (fs : InoFs) (cg : Nat) (t : Turn) (s s₁ : Inodes) : Prop :=
  s₁ = t.others s ∨ ∃ old, s₁ = claimBlock fs cg old (t.others s)

/-- The first turn of a call: it ends before the read, with the read, or with the
    attempt in the group that has been read, or it goes on. -/
theorem nodealloccg_turn {turns : List Turn} {again : Option Nat} {out : Outcome × List Turn}
    (h : nodealloccg memcchr fs cg mode (t :: turns) again ipref s = some out) :
    out = (.returned 0 s s, t :: turns) ∨
    (t.error ≠ 0 ∧ out = (.returned (if again.isSome then t.error else 0) (t.others s) (t.others s),
      turns)) ∨
    (t.error = 0 ∧ ∃ s₁, ReadBack fs cg t s s₁ ∧ (out.1 = .panicked ∨
      (∃ v s', attempt memcchr fs cg mode ipref s₁ = .done v s' ∧
        out = (.returned v s₁ s', turns)) ∨
      ∃ again' ipref' s₂, again'.isSome = !t.busy ∧ (s₂ = s₁ ∨ s₂ = t.meanwhile s₁) ∧
        nodealloccg memcchr fs cg mode turns again' ipref' s₂ = some out)) := by
  unfold nodealloccg at h
  by_cases hnone : again = none ∧ (s.cs cg).nifree = 0
  · rw [if_pos hnone, Option.some.injEq] at h
    exact Or.inl h.symm
  rw [if_neg hnone] at h
  simp only at h
  by_cases herror : t.error ≠ 0
  · rw [if_pos herror] at h
    refine Or.inr (Or.inl ⟨herror, ?_⟩)
    cases again with
    | none | some old => exact (Option.some.inj h).symm
  rw [if_neg herror] at h
  refine Or.inr (Or.inr ⟨not_not.mp herror, ?_⟩)
  -- What the read has brought, whichever it was.
  generalize hread : (match again with
    | none => t.others s
    | some old => claimBlock fs cg old (t.others s)) = s₁ at h
  have hback : ReadBack fs cg t s s₁ := by
    cases again with
    | none => exact Or.inl hread.symm
    | some old => exact Or.inr ⟨old, hread.symm⟩
  refine ⟨s₁, hback, ?_⟩
  cases hattempt : attempt memcchr fs cg mode ipref s₁ with
  | done v s' =>
    rw [hattempt] at h
    exact Or.inr (Or.inl ⟨v, s', rfl, (Option.some.inj h).symm⟩)
  | panicked =>
    rw [hattempt] at h
    rw [← Option.some.inj h]
    exact Or.inl rfl
  | initialise i =>
    rw [hattempt] at h
    simp only at h
    refine Or.inr (Or.inr ?_)
    cases hbusy : t.busy with
    | true =>
      rw [hbusy, if_pos rfl] at h
      exact ⟨none, i, _, rfl, Or.inr rfl, h⟩
    | false =>
      rw [hbusy, if_neg Bool.false_ne_true] at h
      exact ⟨some _, i, _, rfl, Or.inl rfl, h⟩

theorem ReadBack.sane {s₁ : Inodes} (h : ReadBack fs cg t s s₁) (hfair : t.Fair fs) (hs : Sane fs s)
    : Sane fs s₁ := by
  rcases h with rfl | ⟨old, rfl⟩
  · exact hfair.1 s hs
  · exact (hfair.1 s hs).claimBlock cg old

theorem ReadBack.sameMaps {s₁ : Inodes} (h : ReadBack fs cg t s s₁) (hquiet : t.Quiet) :
    SameMaps s s₁ := by
  rcases h with rfl | ⟨old, rfl⟩
  · exact hquiet.1 s
  · exact (hquiet.1 s).trans (SameMaps.claimBlock fs cg old _)

/-- From turn to turn: the number that is returned says what it should exactly if
    no read behind an initialisation fails. -/
theorem nodealloccg_promised (hmem : Skips memcchr) (hfs : fs.Ok) (hcg : (cg + 1) * fs.ipg ≤ 2 ^ 32)
    (mode : Nat) {before after : Inodes} (turns : List Turn) :
    ∀ (again : Option Nat) (ipref : Nat) (s : Inodes), Sane fs s → (∀ t ∈ turns, t.Fair fs) →
    nodealloccg memcchr fs cg mode turns again ipref s = some (.returned v before after, []) →
    (Promised fs cg v before after ↔ RereadsOk again.isSome turns) ∧ Sane fs after := by
  induction turns with
  | nil =>
    intro again ipref s hs _ h
    unfold nodealloccg at h
    by_cases hnone : again = none ∧ (s.cs cg).nifree = 0
    · rw [if_pos hnone, Option.some.injEq, Prod.mk.injEq, Outcome.returned.injEq] at h
      rcases h with ⟨⟨rfl, rfl, rfl⟩, -⟩
      exact ⟨iff_of_true ⟨fun hne => absurd rfl hne, fun _ => SameMaps.refl _⟩ trivial, hs⟩
    · rw [if_neg hnone] at h
      cases h
  | cons t turns ih =>
    intro again ipref s hs hfair h
    have ht := hfair t List.mem_cons_self
    have hrest := fun t' ht' => hfair t' (List.mem_cons_of_mem t ht')
    rcases nodealloccg_turn h with hout | ⟨herror, hout⟩ | ⟨herror, s₁, hback, hcase⟩
    · rw [Prod.mk.injEq] at hout
      exact absurd hout.2 (List.cons_ne_nil t turns).symm
    · rw [Prod.mk.injEq, Outcome.returned.injEq] at hout
      rcases hout with ⟨⟨rfl, rfl, rfl⟩, rfl⟩
      refine ⟨?_, ht.1 s hs⟩
      cases again with
      | none =>
        exact iff_of_true ⟨fun hne => absurd rfl hne, fun _ => SameMaps.refl _⟩
          ⟨fun hno => absurd hno Bool.false_ne_true, trivial⟩
      | some old =>
        -- The error is returned, and nothing has been allocated.
        refine iff_of_false (fun hp => ?_) (fun hok => herror (hok.1 rfl))
        rcases hp.1 herror with ⟨i, -, -, hclear, hset, -⟩
        rw [hclear] at hset
        exact Bool.false_ne_true hset
    have hs₁ := hback.sane ht hs
    have hrereads : RereadsOk again.isSome (t :: turns) ↔ RereadsOk (!t.busy) turns :=
      ⟨fun hok => hok.2, fun hok => ⟨fun _ => herror, hok⟩⟩
    rcases hcase with hpanic | ⟨v', s', hattempt, hout⟩ |
      ⟨again', ipref', s₂, hagain, hs₂, hrun⟩
    · cases hpanic
    · rw [Prod.mk.injEq, Outcome.returned.injEq] at hout
      rcases hout with ⟨⟨rfl, rfl, rfl⟩, rfl⟩
      have hspec := attempt_spec hmem hfs hcg hs₁ hattempt
      exact ⟨iff_of_true hspec.1 (hrereads.mpr trivial), hspec.2⟩
    have hsane : Sane fs s₂ := by
      rcases hs₂ with rfl | rfl
      · exact hs₁
      · exact ht.2 s₁ hs₁
    rw [hrereads, ← hagain]
    exact ih again' ipref' s₂ hsane hrest hrun

/-- While the other threads leave the maps and the counters alone, they are at the
    end as they were at the start, up to the allocation itself. -/
theorem nodealloccg_quiet {before after : Inodes} {rest : List Turn} (turns : List Turn) :
    ∀ (again : Option Nat) (ipref : Nat) (s : Inodes), (∀ t ∈ turns, t.Quiet) →
    nodealloccg memcchr fs cg mode turns again ipref s = some (.returned v before after, rest) →
    SameMaps s before := by
  induction turns with
  | nil =>
    intro again ipref s _ h
    unfold nodealloccg at h
    by_cases hnone : again = none ∧ (s.cs cg).nifree = 0
    · rw [if_pos hnone, Option.some.injEq, Prod.mk.injEq, Outcome.returned.injEq] at h
      rw [← h.1.2.1]
      exact SameMaps.refl s
    · rw [if_neg hnone] at h
      cases h
  | cons t turns ih =>
    intro again ipref s hquiet h
    have ht := hquiet t List.mem_cons_self
    have hrest := fun t' ht' => hquiet t' (List.mem_cons_of_mem t ht')
    rcases nodealloccg_turn h with hout | ⟨-, hout⟩ | ⟨-, s₁, hback, hcase⟩
    · rw [Prod.mk.injEq, Outcome.returned.injEq] at hout
      rw [hout.1.2.1]
      exact SameMaps.refl s
    · rw [Prod.mk.injEq, Outcome.returned.injEq] at hout
      rw [hout.1.2.1]
      exact ht.1 s
    have hs₁ := hback.sameMaps ht
    rcases hcase with hpanic | ⟨v', s', -, hout⟩ | ⟨again', ipref', s₂, -, hs₂, hrun⟩
    · cases hpanic
    · rw [Prod.mk.injEq, Outcome.returned.injEq] at hout
      rw [hout.1.2.1]
      exact hs₁
    have hstep : SameMaps s s₂ := by
      rcases hs₂ with rfl | rfl
      · exact hs₁
      · exact hs₁.trans (ht.2 s₁)
    exact hstep.trans (ih again' ipref' s₂ hrest hrun)

/-- With no other thread about and no error, a call comes to an end: every
    initialisation leaves fewer inodes of the group to be initialised. -/
theorem nodealloccg_ends (hfs : fs.Ok) (turns : List Turn) :
    ∀ (again : Option Nat) (ipref : Nat) (s : Inodes),
    (∀ t ∈ turns, (∀ s, t.others s = s) ∧ t.error = 0 ∧ t.busy = false) →
    (∀ old, again = some old → (s.cgs cg).initediblk = old ∧ old < (s.cgs cg).niblk) →
    (s.cgs cg).niblk - (s.cgs cg).initediblk + (if again.isSome then 0 else 1) ≤ turns.length →
    ∃ out, nodealloccg memcchr fs cg mode turns again ipref s = some out := by
  have hinopb := hfs.inopb
  induction turns with
  | nil =>
    intro again ipref s _ hagain hlen
    cases again with
    | none => simp at hlen
    | some old =>
      have := hagain old rfl
      simp only [Option.isSome_some, if_true, List.length_nil] at hlen
      omega
  | cons t turns ih =>
    intro again ipref s hidle hagain hlen
    have ht := hidle t List.mem_cons_self
    have hrest := fun t' ht' => hidle t' (List.mem_cons_of_mem t ht')
    unfold nodealloccg
    by_cases hnone : again = none ∧ (s.cs cg).nifree = 0
    · rw [if_pos hnone]
      exact ⟨_, rfl⟩
    rw [if_neg hnone]
    simp only
    rw [if_neg (not_not.mpr ht.2.1), ht.1 s]
    generalize hread : (match again with
      | none => s
      | some old => claimBlock fs cg old s) = s₁
    -- A read behind an initialisation has claimed the block.
    have hless : (s₁.cgs cg).niblk - (s₁.cgs cg).initediblk ≤ turns.length := by
      rw [List.length_cons] at hlen
      cases again with
      | none =>
        simp only [Option.isSome_none, Bool.false_eq_true, if_false] at hlen
        rw [← hread]
        change (s.cgs cg).niblk - (s.cgs cg).initediblk ≤ turns.length
        omega
      | some old =>
        rcases hagain old rfl with ⟨hold, hlt⟩
        simp only [Option.isSome_some, if_true] at hlen
        rw [← hread]
        unfold claimBlock
        simp only [hold, if_true, update_self]
        omega
    cases hattempt : attempt memcchr fs cg mode ipref s₁ with
    | done v s' | panicked => exact ⟨_, rfl⟩
    | initialise i =>
      simp only [ht.2.2, Bool.false_eq_true, if_false]
      have hneeds : (s₁.cgs cg).initediblk < (s₁.cgs cg).niblk := by
        unfold attempt at hattempt
        simp only at hattempt
        split at hattempt
        · cases hattempt
        split at hattempt
        · cases hattempt
        split at hattempt
        case isTrue hinit => exact hinit.2.2
        case isFalse => cases hattempt
      refine ih _ i s₁ hrest (fun old hold => ?_) (by
        simp only [Option.isSome_some, if_true, Nat.add_zero]
        exact hless)
      rw [Option.some.injEq] at hold
      rw [← hold]
      exact ⟨rfl, hneeds⟩

/-- The allocations of one search over the groups. -/
structure Calls where
  st : Inodes
  /-- The inodes when the last group was last locked. -/
  before : Inodes
  /-- The turns of the calls to come. -/
  turns : List (List Turn)
  /-- Some call has not returned. -/
  halted : Bool

variable (memcchr) in
/-- `ffs_nodealloccg` as the search calls it. A call that panics or goes on for
    ever ends the search. -/
def nodeallocator (fs : InoFs) : Allocfcn Calls := fun w cg pref mode _ =>
  match w.turns with
  | [] => (1, { w with halted := true })
  | turns :: rest =>
    match nodealloccg memcchr fs cg mode.toNat turns none pref.toNat w.st with
    | some (.returned v before after, []) =>
      (v, { w with st := after, before := before, turns := rest })
    | _ => (1, { w with halted := true, turns := rest })

/-- The state is sane, and in the calls to come the other threads keep it so and
    no read behind an initialisation fails. -/
def Calls.Good (fs : InoFs) (w : Calls) : Prop :=
  w.halted = true ∨ (Sane fs w.st ∧
    ∀ turns ∈ w.turns, (∀ t ∈ turns, t.Fair fs) ∧ RereadsOk false turns)

/-- One call of a search. -/
theorem nodeallocator_spec (hmem : Skips memcchr) (hfs : fs.Ok) (hcg : (cg + 1) * fs.ipg ≤ 2 ^ 32)
    (pref mode rsize : Int) {w : Calls} (h : w.Good fs) :
    (nodeallocator memcchr fs w cg pref mode rsize).2.Good fs ∧
      ((nodeallocator memcchr fs w cg pref mode rsize).2.halted = false →
        Promised fs cg (nodeallocator memcchr fs w cg pref mode rsize).1
          (nodeallocator memcchr fs w cg pref mode rsize).2.before
          (nodeallocator memcchr fs w cg pref mode rsize).2.st) := by
  unfold nodeallocator
  cases hturns : w.turns with
  | nil => exact ⟨Or.inl rfl, fun hno => absurd hno (Bool.false_ne_true ∘ Eq.symm)⟩
  | cons turns rest =>
    simp only
    split
    case h_1 v before after hrun =>
      rcases h with hhalted | ⟨hsane, hgood⟩
      · exact ⟨Or.inl hhalted, fun hno => absurd hhalted (by rw [hno]; exact Bool.false_ne_true)⟩
      rw [hturns] at hgood
      rcases hgood turns List.mem_cons_self with ⟨hfair, hrereads⟩
      rcases nodealloccg_promised hmem hfs hcg mode.toNat turns none pref.toNat w.st hsane hfair
        hrun with ⟨hiff, hafter⟩
      exact ⟨Or.inr ⟨hafter, fun turns' ht' => hgood turns' (List.mem_cons_of_mem _ ht')⟩,
        fun _ => hiff.mpr hrereads⟩
    case h_2 => exact ⟨Or.inl rfl, fun hno => absurd hno (Bool.false_ne_true ∘ Eq.symm)⟩

/-- A group of a file system whose inodes all have numbers. -/
theorem group_fits {ncg ipg : Nat} (hnum : ncg * ipg ≤ 2 ^ 32) (hcg : cg < ncg) :
    (cg + 1) * ipg ≤ 2 ^ 32 :=
  (Nat.mul_le_mul_right ipg hcg).trans hnum

/-- Whatever the other threads do, a call that returns does what the number says
    exactly if no read behind an initialisation fails; and when none does in a
    search over the groups, the search reports no inode that has not been
    allocated. -/
theorem nodealloccg_promised_iff (hmem : Skips memcchr) {fs : InoFs} (hfs : fs.Ok) {ncg : Nat}
    (hnum : ncg * fs.ipg ≤ 2 ^ 32) :
    (∀ cg < ncg, ∀ (mode ipref : Nat) (s : Inodes) (turns : List Turn) (v : Int)
      (before after : Inodes), Sane fs s → (∀ t ∈ turns, t.Fair fs) →
      nodealloccg memcchr fs cg mode turns none ipref s = some (.returned v before after, []) →
      (Promised fs cg v before after ↔ RereadsOk false turns) ∧
        ((∀ t ∈ turns, t.Quiet) → SameMaps s before)) ∧
    ∀ icg < ncg, ∀ (fuel : Nat) (pref mode : Int) (w : Calls) (r : Search Calls),
      Sane fs w.st → (∀ turns ∈ w.turns, (∀ t ∈ turns, t.Fair fs) ∧ RereadsOk false turns) →
      ffsHashalloc (nodeallocator memcchr fs) ncg mode 0 fuel icg pref w = some r →
      r.state.halted = false → r.result ≠ 0 →
      ∃ cg < ncg, Allocated fs cg r.result r.state.before r.state.st := by
  constructor
  · intro cg hcg mode ipref s turns v before after hs hfair hrun
    exact ⟨(nodealloccg_promised hmem hfs (group_fits hnum hcg) mode turns none ipref s hs hfair
      hrun).1, fun hquiet => nodealloccg_quiet turns none ipref s hquiet hrun⟩
  intro icg hicg fuel pref mode w r hs hgood hrun hreturned hfound
  have hlast := ffsHashalloc_last (nodeallocator memcchr fs) mode 0
    (I := fun w => w.Good fs) (fun w cg pref hcg h =>
      (nodeallocator_spec hmem hfs (group_fits hnum hcg) pref mode 0 h).1) hicg
    (Or.inr ⟨hs, hgood⟩) hrun
  rcases hlast.2 hfound with ⟨w', cg, pref', hcg, hw', hcall⟩
  have hspec := (nodeallocator_spec hmem hfs (group_fits hnum hcg) pref' mode 0 hw').2
  rw [hcall] at hspec
  exact ⟨cg, hcg, (hspec hreturned).1 hfound⟩

/-- A loop over the bytes, as the machine layer has it. -/
def memcchrLoop (s : Nat → BitVec 8) (c : BitVec 8) : Nat → Nat → Option Nat
  | 0, _ => none
  | n + 1, i => if s i ≠ c then some i else memcchrLoop s c n (i + 1)

theorem memcchrLoop_spec (s : Nat → BitVec 8) (c : BitVec 8) (n : Nat) : ∀ i,
    (∀ k, memcchrLoop s c n i = some k → k < i + n ∧ s k ≠ c ∧ ∀ j, i ≤ j → j < k → s j = c) ∧
    (memcchrLoop s c n i = none → ∀ j, i ≤ j → j < i + n → s j = c) := by
  induction n with
  | zero =>
    exact fun i => ⟨fun k hk => absurd hk.symm (Option.some_ne_none k), fun _ j hj hj' => by omega⟩
  | succ n ih =>
    intro i
    unfold memcchrLoop
    by_cases hne : s i ≠ c
    · rw [if_pos hne]
      refine ⟨fun k hk => ?_, fun hno => absurd hno (Option.some_ne_none i)⟩
      rw [← Option.some.inj hk]
      exact ⟨by omega, hne, fun j hj hj' => by omega⟩
    rw [if_neg hne]
    have hself : s i = c := not_not.mp hne
    rcases ih (i + 1) with ⟨hfound, hnone⟩
    constructor
    · intro k hk
      rcases hfound k hk with ⟨hlt, hdiff, hbefore⟩
      refine ⟨by omega, hdiff, fun j hj hj' => ?_⟩
      by_cases heq : j = i
      · rw [heq]
        exact hself
      · exact hbefore j (by omega) hj'
    intro hno j hj hj'
    by_cases heq : j = i
    · rw [heq]
      exact hself
    · exact hnone hno j (by omega) (by omega)

theorem memcchrLoop_skips : Skips (fun s c n => memcchrLoop s c n 0) := by
  constructor
  · intro s c n i h
    rcases (memcchrLoop_spec s c n 0).1 i h with ⟨hlt, hne, hbefore⟩
    exact ⟨by omega, hne, fun j hj => hbefore j zero_le hj⟩
  · intro s c n h j hj
    exact (memcchrLoop_spec s c n 0).2 h j zero_le (by omega)

/-- Groups of sixteen inodes, four to a block. -/
def lazyFs : InoFs := ⟨true, 16, 4⟩

/-- Both inodes 0 and 1 are in use in every group, and no inode is initialised. -/
def lazyInodes : Inodes where
  cgs := fun _ => ⟨cgMagic, ⟨0, 14⟩, 0, 16, 0, fun i => if i = 0 then 0x03 else 0⟩
  cs := fun _ => ⟨0, 14⟩
  cstotal := ⟨0, 28⟩

/-- A turn with no other thread about. -/
def aloneTurn (error : Int) : Turn := ⟨id, error, false, id⟩

theorem lazyFs_ok : lazyFs.Ok := ⟨by decide, by decide, by decide⟩

theorem lazyInodes_sane : Sane lazyFs lazyInodes :=
  ⟨fun _ => (by decide : 0 < 16), by decide⟩

theorem aloneTurn_fair (error : Int) : (aloneTurn error).Fair lazyFs :=
  ⟨fun _ h => h, fun _ h => h⟩

/-- The inode block is written, and the second read of group 1 fails with error 5.
    Nothing has been allocated, and 5 is returned as the number of an inode. -/
theorem nodealloccg_returns_errno :
    nodealloccg (fun s c n => memcchrLoop s c n 0) lazyFs 1 0 [aloneTurn 0, aloneTurn 5] none 0
        lazyInodes = some (.returned 5 lazyInodes lazyInodes, []) ∧
      ¬ Promised lazyFs 1 5 lazyInodes lazyInodes := by
  refine ⟨rfl, fun h => ?_⟩
  rcases h.1 (by decide) with ⟨i, -, -, hclear, hset, -⟩
  rw [hclear] at hset
  exact Bool.false_ne_true hset

/-- With no read failing two blocks are initialised, and inode 18 is allocated. -/
theorem nodealloccg_promised_iff_lazy : ∃ before after,
    nodealloccg (fun s c n => memcchrLoop s c n 0) lazyFs 1 0
        [aloneTurn 0, aloneTurn 0, aloneTurn 0] none 0 lazyInodes =
      some (.returned 18 before after, []) ∧
      Promised lazyFs 1 18 before after ∧ SameMaps lazyInodes before := by
  have hmany : 2 * lazyFs.ipg ≤ 2 ^ 32 := by decide
  have hfair : ∀ t ∈ [aloneTurn 0, aloneTurn 0, aloneTurn 0], t.Fair lazyFs := by
    intro t ht
    simp only [List.mem_cons, List.not_mem_nil, or_false, or_self] at ht
    rw [ht]
    exact aloneTurn_fair 0
  have hquiet : ∀ t ∈ [aloneTurn 0, aloneTurn 0, aloneTurn 0], t.Quiet := by
    intro t ht
    simp only [List.mem_cons, List.not_mem_nil, or_false, or_self] at ht
    rw [ht]
    exact ⟨SameMaps.refl, SameMaps.refl⟩
  have hrereads : RereadsOk false [aloneTurn 0, aloneTurn 0, aloneTurn 0] := by
    simp [RereadsOk, aloneTurn]
  have hspec := (nodealloccg_promised_iff memcchrLoop_skips lazyFs_ok hmany).1 1 (by decide) 0 0
    lazyInodes [aloneTurn 0, aloneTurn 0, aloneTurn 0] 18 _ _ lazyInodes_sane hfair rfl
  exact ⟨_, _, rfl, hspec.1.mpr hrereads, hspec.2 hquiet⟩

theorem nodealloccg_ends_lazy : ∃ out, nodealloccg (fun s c n => memcchrLoop s c n 0) lazyFs 1 0
    (List.replicate 17 (aloneTurn 0)) none 0 lazyInodes = some out := by
  refine nodealloccg_ends lazyFs_ok _ none 0 lazyInodes (fun t ht => ?_) (by simp) (by decide)
  rw [List.eq_of_mem_replicate ht]
  exact ⟨fun _ => rfl, rfl, rfl⟩

end FreeBSDKern.Ffs
