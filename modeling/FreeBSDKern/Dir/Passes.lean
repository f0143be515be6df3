import FreeBSDKern.Dir.Build

/-!
# The Linear Search of a Directory

The model of the search loop of `ufs_lookup_ino`, which goes from record to record and
looks for a name, and for a place to put it where it is to be created. A lookup starts
where the last one ended, and comes back to the part before that in a second pass.

The offset where the last lookup ended is rounded down to a multiple of 512 when it is
stored, so a pass never starts inside a record. A record that is not well formed ends its
512 bytes, and no record goes over their end. What a pass sees from such a multiple on
does not depend on what was before, whatever the directory contains, and the two passes
see together what one does.

A buffer holds one block of the file system. The fields of a record that begins in the
last bytes of a buffer are read as those of the directory that follow.

## Main definitions

* `Pass`: The variables of the loop.
* `searchStep`, `searchLoop`, `lookupIno`: One turn, a pass, and the passes.
* `firstHit`: The first record with the name, as a pass sees them.

## Theorems

* `lookupIno_ends`: The search ends for every directory.
* `searchLoop_eq`: What a pass finds.
* `firstHit_split`: Two passes that meet see what one does.
* `lookupIno_diroff`: Where the search starts does not matter.
-/

namespace FreeBSDKern.Dir

def maxnamlen : Nat := 255

inductive Nameiop where
  | lookup
  | create
  | delete
  | rename
deriving DecidableEq

inductive Slotstatus where
  | none
  | compact
  | found
deriving DecidableEq

/-- What the search finds around it. -/
structure SearchEnv where
  /-- `f_iosize`, the size of a block of the file system. -/
  iosize : Nat
  /-- `UFS_BLKATOFF`: the error of reading the block at an offset, if there is one. -/
  blkatoff : Nat → Option Nat
  dirchk : Bool
  maxsymlinklen : Int

/-- The variables of the loop. -/
structure Pass where
  iOffset : Nat
  entryoffsetinblock : Nat
  /-- The buffer, by the offset of its block in the directory. -/
  bp : Option Nat
  slotstatus : Slotstatus
  slotoffset : Int
  slotsize : Int
  slotfreespace : Int
  prevoff : Nat
  enduseful : Nat

/-- How a pass ends. -/
inductive PassEnd where
  | error (errno : Nat)
  /-- There is no buffer to look at. -/
  | fault
  /-- `goto notfound` for an entry that hides the name. -/
  | whiteout
  /-- `goto found`. -/
  | found (ino : Nat)
  /-- The end of the search has been reached. -/
  | exhausted
deriving DecidableEq

def dtWht : Nat := 14

/-- `ufs_dirbadentry`. -/
def dirbadentry (D : Directory) (ep entryoffsetinblock : Nat) : Bool :=
  if D.dReclen ep % 4 ≠ 0 ∨ D.dReclen ep > dirblksiz - entryoffsetinblock % dirblksiz ∨
      D.dReclen ep < D.dirsiz ep ∨ D.namlen ep > maxnamlen then true
  else if D.dIno ep = 0 then false
  else (D.dName ep (D.namlen ep)).any (· = 0) || D.data (ep + 8 + D.namlen ep) ≠ 0

/-- The test for a record that ends its 512 bytes. -/
def mangled (D : Directory) (dirchk : Bool) (ep entryoffsetinblock : Nat) : Bool :=
  D.dReclen ep = 0 ∨ D.dReclen ep > dirblksiz - entryoffsetinblock % dirblksiz ∨
    (dirchk ∧ dirbadentry D ep entryoffsetinblock)

/-- The test for a name match. -/
def nameMatch (D : Directory) (name : Name) (ep : Nat) : Bool :=
  D.dIno ep ≠ 0 ∧ D.namlen ep = name.length ∧ name.headD 0 = D.data (ep + 8) ∧
    name = D.dName ep name.length

/-- The search for a slot. -/
def seekSlot (D : Directory) (slotneeded : Nat) (p : Pass) (ep : Nat) : Pass :=
  if p.slotstatus ≠ .found then
    let size : Int := if D.dIno ep ≠ 0 then D.dReclen ep - D.dirsiz ep else D.dReclen ep
    if size > 0 then
      if size ≥ slotneeded then
        { p with slotstatus := .found, slotoffset := p.iOffset, slotsize := D.dReclen ep }
      else if p.slotstatus = .none then
        let slotfreespace := p.slotfreespace + size
        let slotoffset := if p.slotoffset = -1 then (p.iOffset : Int) else p.slotoffset
        if slotfreespace ≥ slotneeded then
          { p with slotstatus := .compact, slotoffset := slotoffset, slotfreespace := slotfreespace,
                   slotsize := p.iOffset + D.dReclen ep - slotoffset }
        else { p with slotoffset := slotoffset, slotfreespace := slotfreespace }
      else p
    else p
  else p

/-- The next block at a block boundary. -/
def nextBlock (env : SearchEnv) (p : Pass) : Except Nat Pass :=
  if p.iOffset % env.iosize = 0 then
    match env.blkatoff p.iOffset with
    | some errno => .error errno
    | none => .ok { p with bp := some p.iOffset, entryoffsetinblock := 0 }
  else .ok p

/-- One turn of the loop: the next state, or the last one and how the pass ends. -/
def searchStep (D : Directory) (env : SearchEnv) (name : Name) (slotneeded : Nat) (p : Pass) :
    Pass × Option PassEnd :=
  match nextBlock env p with
  | .error errno => (p, some (.error errno))
  | .ok p =>
    -- If still looking for a slot, have to start looking for free space again.
    let p := if p.slotstatus = .none ∧ p.entryoffsetinblock % dirblksiz = 0 then
        { p with slotoffset := -1, slotfreespace := 0 }
      else p
    match p.bp with
    | none => (p, some .fault)
    | some blk =>
      let ep := blk + p.entryoffsetinblock
      if mangled D env.dirchk ep p.entryoffsetinblock then
        let i := dirblksiz - p.entryoffsetinblock % dirblksiz
        ({ p with iOffset := p.iOffset + i, entryoffsetinblock := p.entryoffsetinblock + i }, none)
      else
        let p := seekSlot D slotneeded p ep
        if nameMatch D name ep then
          if env.maxsymlinklen > 0 ∧ D.dType ep = dtWht then
            ({ p with slotstatus := .found, slotoffset := p.iOffset, slotsize := D.dReclen ep,
                      enduseful := D.iSize }, some .whiteout)
          else (p, some (.found (D.dIno ep)))
        else
          let p := { p with prevoff := p.iOffset, iOffset := p.iOffset + D.dReclen ep,
                            entryoffsetinblock := p.entryoffsetinblock + D.dReclen ep }
          (if D.dIno ep ≠ 0 then { p with enduseful := p.iOffset } else p, none)

/-- A pass, if it ends within `fuel` turns. -/
def searchLoop (D : Directory) (env : SearchEnv) (name : Name) (slotneeded endsearch : Nat) :
    Nat → Pass → Option (Pass × PassEnd)
  | 0, _ => none
  | fuel + 1, p =>
    if p.iOffset < endsearch then
      match searchStep D env name slotneeded p with
      | (p, some r) => some (p, r)
      | (p, none) => searchLoop D env name slotneeded endsearch fuel p
    else some (p, .exhausted)

def roundup2 (x y : Nat) : Nat := (x + (y - 1)) / y * y

/-- The search of `ufs_lookup_ino` without a hash, if it ends within `fuel` turns. -/
def lookupIno (D : Directory) (env : SearchEnv) (nameiop : Nameiop) (islastcn : Bool) (name : Name)
    (diroff fuel : Nat) : Option (Pass × PassEnd) :=
  let create := (nameiop = .create ∨ nameiop = .rename) ∧ islastcn
  let slotneeded := if create then directsiz name.length else 0
  let p : Pass :=
    { iOffset := 0, entryoffsetinblock := 0, bp := none,
      slotstatus := if create then .none else .found,
      slotoffset := -1, slotsize := 0, slotfreespace := 0, prevoff := 0, enduseful := 0 }
  let endsearch := roundup2 D.iSize dirblksiz
  if nameiop ≠ .lookup ∨ diroff = 0 ∨ diroff ≥ D.iSize then
    searchLoop D env name slotneeded endsearch fuel p
  else
    let entryoffset := diroff % env.iosize
    match if entryoffset ≠ 0 then env.blkatoff diroff else none with
    | some errno => some (p, .error errno)
    | none =>
      let p := { p with iOffset := diroff, entryoffsetinblock := entryoffset, prevoff := diroff,
                        bp := if entryoffset ≠ 0 then some (diroff - entryoffset) else none }
      match searchLoop D env name slotneeded endsearch fuel p with
      | some (p, .exhausted) =>
        -- We started in the middle, and must check the beginning as well.
        searchLoop D env name slotneeded diroff fuel { p with iOffset := 0 }
      | r => r

/-- The offset that is kept for the next lookup: `i_offset &~ (DIRBLKSIZ - 1)`. -/
def keptDiroff (iOffset : Nat) : Nat := iOffset / dirblksiz * dirblksiz

/-! ## The search ends -/

variable {D : Directory} {env : SearchEnv} {name : Name} {slotneeded endsearch : Nat}

theorem nextBlock_iOffset {p p' : Pass} (h : nextBlock env p = .ok p') :
    p'.iOffset = p.iOffset := by
  unfold nextBlock at h
  split at h
  case isTrue =>
    split at h
    · exact absurd h nofun
    · rw [Except.ok.injEq] at h
      rw [← h]
  case isFalse =>
    rw [Except.ok.injEq] at h
    rw [← h]

-- The search for a slot changes what is known of the slot.
theorem seekSlot_eq (p : Pass) (ep : Nat) : ∃ status offset size space,
    seekSlot D slotneeded p ep = { p with slotstatus := status, slotoffset := offset,
                                          slotsize := size, slotfreespace := space } := by
  unfold seekSlot
  dsimp only
  generalize (if D.dIno ep ≠ 0 then (D.dReclen ep : Int) - D.dirsiz ep else D.dReclen ep) = size
  generalize (if p.slotoffset = -1 then (p.iOffset : Int) else p.slotoffset) = offset
  split
  · split
    · split
      · exact ⟨_, _, _, _, rfl⟩
      split
      · split
        · exact ⟨_, _, _, _, rfl⟩
        · exact ⟨_, _, _, _, rfl⟩
      · exact ⟨_, _, _, _, rfl⟩
    · exact ⟨_, _, _, _, rfl⟩
  · exact ⟨_, _, _, _, rfl⟩

@[simp] theorem seekSlot_iOffset (p : Pass) (ep : Nat) :
    (seekSlot D slotneeded p ep).iOffset = p.iOffset := by
  obtain ⟨_, _, _, _, heq⟩ := @seekSlot_eq D slotneeded p ep
  rw [heq]

@[simp] theorem seekSlot_entryoffset (p : Pass) (ep : Nat) :
    (seekSlot D slotneeded p ep).entryoffsetinblock = p.entryoffsetinblock := by
  obtain ⟨_, _, _, _, heq⟩ := @seekSlot_eq D slotneeded p ep
  rw [heq]

@[simp] theorem seekSlot_bp (p : Pass) (ep : Nat) : (seekSlot D slotneeded p ep).bp = p.bp := by
  obtain ⟨_, _, _, _, heq⟩ := @seekSlot_eq D slotneeded p ep
  rw [heq]

theorem reclen_pos {ep entryoffset : Nat} {dirchk : Bool}
    (h : ¬mangled D dirchk ep entryoffset = true) : 0 < D.dReclen ep ∧
      D.dReclen ep ≤ dirblksiz - entryoffset % dirblksiz := by
  unfold mangled at h
  rw [decide_eq_true_eq, not_or, not_or] at h
  omega

-- Every turn that does not end the pass goes forward.
theorem searchStep_forward {p p' : Pass} (h : searchStep D env name slotneeded p = (p', none)) :
    p.iOffset < p'.iOffset := by
  unfold searchStep at h
  split at h
  · exact absurd (congrArg Prod.snd h) nofun
  rename_i p₁ hnext
  have hsame := nextBlock_iOffset hnext
  dsimp only at h
  have hkeep : (if p₁.slotstatus = .none ∧ p₁.entryoffsetinblock % dirblksiz = 0 then
      { p₁ with slotoffset := -1, slotfreespace := 0 } else p₁ : Pass).iOffset = p.iOffset := by
    split
    · exact hsame
    · exact hsame
  generalize (if p₁.slotstatus = .none ∧ p₁.entryoffsetinblock % dirblksiz = 0 then
      { p₁ with slotoffset := -1, slotfreespace := 0 } else p₁ : Pass) = p₂ at h hkeep
  split at h
  · exact absurd (congrArg Prod.snd h) nofun
  split at h
  case isTrue =>
    rw [Prod.mk.injEq] at h
    have hpos : 0 < dirblksiz - p₂.entryoffsetinblock % dirblksiz :=
      Nat.sub_pos_of_lt (Nat.mod_lt _ (by decide))
    rw [← h.1]
    dsimp only
    omega
  case isFalse hok =>
  have hpos := (reclen_pos hok).1
  split at h
  case isTrue =>
    split at h
    · exact absurd (congrArg Prod.snd h) nofun
    · exact absurd (congrArg Prod.snd h) nofun
  case isFalse =>
  rw [Prod.mk.injEq] at h
  rw [← h.1]
  split
  · simp only [seekSlot_iOffset]
    omega
  · simp only [seekSlot_iOffset]
    omega

theorem searchLoop_ends : ∀ (fuel : Nat) (p : Pass), endsearch - p.iOffset < fuel →
    ∃ r, searchLoop D env name slotneeded endsearch fuel p = some r := by
  intro fuel
  induction fuel with
  | zero =>
    intro p h
    omega
  | succ fuel ih =>
    intro p h
    rw [searchLoop]
    split
    case isFalse => exact ⟨_, rfl⟩
    case isTrue hlt =>
    cases hstep : searchStep D env name slotneeded p with
    | mk p' r =>
      cases r with
      | some r => exact ⟨_, rfl⟩
      | none =>
        have hforward := searchStep_forward hstep
        exact ih p' (by omega)

/-- The search ends for every content of the directory, wherever it starts and whatever
    can be read. -/
theorem lookupIno_ends (D : Directory) (env : SearchEnv) (nameiop : Nameiop) (islastcn : Bool)
    (name : Name) (diroff : Nat) :
    ∃ fuel r, lookupIno D env nameiop islastcn name diroff fuel = some r := by
  refine ⟨roundup2 D.iSize dirblksiz + D.iSize + 1, ?_⟩
  unfold lookupIno
  dsimp only
  split
  · exact searchLoop_ends _ _ (by dsimp only; omega)
  rename_i hin
  split
  · exact ⟨_, rfl⟩
  split
  · exact searchLoop_ends _ _ (by dsimp only; omega)
  · exact searchLoop_ends _ _ (by omega)

/-! ## What a pass finds -/

/-- The first record with the name from one offset to another, as a pass sees them. -/
def firstHit (D : Directory) (dirchk : Bool) (name : Name) (e : Nat) : Nat → Nat → Option Nat
  | 0, _ => none
  | fuel + 1, o =>
    if o < e then
      if mangled D dirchk o o then firstHit D dirchk name e fuel (o + (dirblksiz - o % dirblksiz))
      else if nameMatch D name o then some o
      else firstHit D dirchk name e fuel (o + D.dReclen o)
    else none

/-- How a pass ends that has found a record, or none. -/
def endOf (D : Directory) (env : SearchEnv) : Option Nat → PassEnd
  | none => .exhausted
  | some o =>
    if env.maxsymlinklen > 0 ∧ D.dType o = dtWht then .whiteout else .found (D.dIno o)

/-- The blocks of the file system are whole numbers of 512 bytes, and can be read. -/
structure SearchEnv.Ok (env : SearchEnv) : Prop where
  pos : 0 < env.iosize
  blocks : dirblksiz ∣ env.iosize
  readable : ∀ o, env.blkatoff o = none

/-- Inside a block the buffer is the one of that block. -/
def Synced (env : SearchEnv) (p : Pass) : Prop :=
  p.iOffset % env.iosize ≠ 0 → p.bp = some (p.iOffset - p.iOffset % env.iosize) ∧
    p.entryoffsetinblock = p.iOffset % env.iosize

theorem mangled_congr {dirchk : Bool} {ep i j : Nat} (h : i % dirblksiz = j % dirblksiz) :
    mangled D dirchk ep i = mangled D dirchk ep j := by
  unfold mangled dirbadentry
  rw [h]

/-- A record does not go over the end of its 512 bytes, so it does not go over the end
    of the buffer. -/
theorem advance_mod {m o r : Nat} (hm : 0 < m) (hblocks : dirblksiz ∣ m)
    (hr : r ≤ dirblksiz - o % m % dirblksiz) (hne : (o + r) % m ≠ 0) : (o + r) % m = o % m + r := by
  obtain ⟨k, rfl⟩ := hblocks
  have hlt : o % (dirblksiz * k) < dirblksiz * k := Nat.mod_lt _ hm
  have hle : o % (dirblksiz * k) + r ≤ dirblksiz * k := by
    unfold dirblksiz at hr hlt ⊢
    omega
  have hsum : (o + r) % (dirblksiz * k) = (o % (dirblksiz * k) + r) % (dirblksiz * k) := by
    rw [Nat.mod_add_mod]
  rw [hsum] at hne ⊢
  rcases Nat.lt_or_eq_of_le hle with hlt' | heq
  · exact Nat.mod_eq_of_lt hlt'
  · rw [heq, Nat.mod_self] at hne
    exact absurd rfl hne

theorem Synced.advance (henv : env.Ok) {p p' : Pass} {r : Nat}
    (hbp : p.bp = some (p.iOffset - p.iOffset % env.iosize))
    (hentry : p.entryoffsetinblock = p.iOffset % env.iosize)
    (hr : r ≤ dirblksiz - p.entryoffsetinblock % dirblksiz) (ho : p'.iOffset = p.iOffset + r)
    (hbp' : p'.bp = p.bp) (he : p'.entryoffsetinblock = p.entryoffsetinblock + r) :
    Synced env p' := by
  intro hne
  rw [ho] at hne ⊢
  rw [hentry] at hr
  have hmod := advance_mod henv.pos henv.blocks hr hne
  have hle := Nat.mod_le p.iOffset env.iosize
  rw [hmod, hbp', hbp, he, hentry]
  refine ⟨?_, rfl⟩
  congr 1
  omega

/-- One turn at a record. -/
theorem searchStep_eq (henv : env.Ok) {p : Pass} (h : Synced env p) : ∃ p',
    searchStep D env name slotneeded p = (p', if mangled D env.dirchk p.iOffset p.iOffset then none
      else if nameMatch D name p.iOffset then some (endOf D env (some p.iOffset)) else none) ∧
    (if mangled D env.dirchk p.iOffset p.iOffset then
        p'.iOffset = p.iOffset + (dirblksiz - p.iOffset % dirblksiz) ∧ Synced env p'
      else if nameMatch D name p.iOffset then p'.iOffset = p.iOffset
      else p'.iOffset = p.iOffset + D.dReclen p.iOffset ∧ Synced env p') := by
  -- The block is in the buffer.
  obtain ⟨p₁, hnext, ho, hbp, hentry⟩ : ∃ p₁, nextBlock env p = .ok p₁ ∧ p₁.iOffset = p.iOffset ∧
      p₁.bp = some (p.iOffset - p.iOffset % env.iosize) ∧
      p₁.entryoffsetinblock = p.iOffset % env.iosize := by
    unfold nextBlock
    split
    case isTrue hzero =>
      rw [henv.readable]
      exact ⟨_, rfl, rfl, by rw [hzero, Nat.sub_zero], hzero.symm⟩
    case isFalse hne => exact ⟨p, rfl, rfl, h hne⟩
  obtain ⟨p₂, hp₂, ho₂, hbp₂, hentry₂⟩ : ∃ p₂, (if p₁.slotstatus = .none ∧
      p₁.entryoffsetinblock % dirblksiz = 0 then
        { p₁ with slotoffset := -1, slotfreespace := 0 } else p₁ : Pass) = p₂ ∧
      p₂.iOffset = p.iOffset ∧ p₂.bp = some (p₂.iOffset - p₂.iOffset % env.iosize) ∧
      p₂.entryoffsetinblock = p₂.iOffset % env.iosize := by
    refine ⟨_, rfl, ?_⟩
    split
    · exact ⟨ho, by dsimp only; rw [ho]; exact hbp, by dsimp only; rw [ho]; exact hentry⟩
    · exact ⟨ho, by rw [ho]; exact hbp, by rw [ho]; exact hentry⟩
  have hmod : p₂.entryoffsetinblock % dirblksiz = p.iOffset % dirblksiz := by
    rw [hentry₂, ho₂, Nat.mod_mod_of_dvd _ henv.blocks]
  have hep : p₂.iOffset - p₂.iOffset % env.iosize + p₂.entryoffsetinblock = p.iOffset := by
    rw [hentry₂, ho₂, Nat.sub_add_cancel (Nat.mod_le _ _)]
  unfold searchStep
  rw [hnext]
  dsimp only
  rw [hp₂, hbp₂]
  dsimp only
  rw [hep, mangled_congr hmod]
  by_cases hbad : mangled D env.dirchk p.iOffset p.iOffset = true
  · simp only [if_pos hbad]
    refine ⟨_, rfl, ?_, ?_⟩
    · rw [hmod, ho₂]
    · exact Synced.advance henv hbp₂ hentry₂ le_rfl rfl hbp₂.symm rfl
  simp only [if_neg hbad]
  by_cases hhit : nameMatch D name p.iOffset = true
  · simp only [if_pos hhit, endOf]
    by_cases hwht : env.maxsymlinklen > 0 ∧ D.dType p.iOffset = dtWht
    · rw [if_pos hwht, if_pos hwht]
      exact ⟨_, rfl, by simp only [seekSlot_iOffset]; exact ho₂⟩
    · rw [if_neg hwht, if_neg hwht]
      exact ⟨_, rfl, by simp only [seekSlot_iOffset]; exact ho₂⟩
  simp only [if_neg hhit]
  have hle : D.dReclen p.iOffset ≤ dirblksiz - p₂.entryoffsetinblock % dirblksiz := by
    rw [hmod]
    exact (reclen_pos hbad).2
  refine ⟨_, rfl, ?_⟩
  split
  · refine ⟨by simp only [seekSlot_iOffset, ho₂], ?_⟩
    exact Synced.advance henv hbp₂ hentry₂ hle (by simp only [seekSlot_iOffset])
      (by simp only [seekSlot_bp]) (by simp only [seekSlot_entryoffset])
  refine ⟨by simp only [seekSlot_iOffset, ho₂], ?_⟩
  exact Synced.advance henv hbp₂ hentry₂ hle (by simp only [seekSlot_iOffset])
    (by simp only [seekSlot_bp]) (by simp only [seekSlot_entryoffset])

/-- A pass finds the first record with the name. -/
theorem searchLoop_eq (henv : env.Ok) : ∀ (fuel : Nat) (p : Pass), endsearch - p.iOffset < fuel →
    Synced env p → ∃ p', searchLoop D env name slotneeded endsearch fuel p =
      some (p', endOf D env (firstHit D env.dirchk name endsearch fuel p.iOffset)) ∧
      ∀ o, firstHit D env.dirchk name endsearch fuel p.iOffset = some o → p'.iOffset = o := by
  intro fuel
  induction fuel with
  | zero =>
    intro p hfuel
    omega
  | succ fuel ih =>
    intro p hfuel h
    rw [searchLoop, firstHit]
    by_cases hlt : p.iOffset < endsearch
    · obtain ⟨p', hstep, hp'⟩ := searchStep_eq (D := D) henv h
      rw [if_pos hlt, if_pos hlt, hstep]
      have hforward : 0 < dirblksiz - p.iOffset % dirblksiz :=
        Nat.sub_pos_of_lt (Nat.mod_lt _ (by decide))
      by_cases hbad : mangled D env.dirchk p.iOffset p.iOffset = true
      · rw [if_pos hbad] at hp'
        rw [if_pos hbad, if_pos hbad, ← hp'.1]
        exact ih p' (by omega) hp'.2
      rw [if_neg hbad] at hp'
      rw [if_neg hbad, if_neg hbad]
      by_cases hhit : nameMatch D name p.iOffset = true
      · rw [if_pos hhit] at hp'
        rw [if_pos hhit, if_pos hhit]
        exact ⟨p', rfl, fun o ho => by rw [Option.some.injEq] at ho; rw [hp', ho]⟩
      rw [if_neg hhit] at hp'
      rw [if_neg hhit, if_neg hhit, ← hp'.1]
      have hpos := (reclen_pos hbad).1
      exact ih p' (by omega) hp'.2
    · rw [if_neg hlt, if_neg hlt]
      exact ⟨p, rfl, fun o ho => absurd ho nofun⟩

/-! ## Two passes -/

section Hits

variable {dirchk : Bool}

theorem firstHit_fuel {e : Nat} : ∀ (f f' o : Nat), e - o ≤ f → e - o ≤ f' →
    firstHit D dirchk name e f o = firstHit D dirchk name e f' o := by
  have hend : ∀ (f o : Nat), e ≤ o → firstHit D dirchk name e f o = none := by
    intro f o ho
    cases f with
    | zero => rfl
    | succ f => rw [firstHit, if_neg (by omega)]
  intro f
  induction f with
  | zero =>
    intro f' o h _
    rw [hend 0 o (by omega), hend f' o (by omega)]
  | succ f ih =>
    intro f' o h h'
    by_cases hlt : o < e
    · obtain ⟨f', rfl⟩ : ∃ n, f' = n + 1 := ⟨f' - 1, by omega⟩
      have hforward : 0 < dirblksiz - o % dirblksiz :=
        Nat.sub_pos_of_lt (Nat.mod_lt _ (by decide))
      rw [firstHit, firstHit, if_pos hlt, if_pos hlt]
      by_cases hbad : mangled D dirchk o o = true
      · rw [if_pos hbad, if_pos hbad, ih f' _ (by omega) (by omega)]
      · have hpos := (reclen_pos hbad).1
        rw [if_neg hbad, if_neg hbad, ih f' _ (by omega) (by omega)]
    · rw [hend _ o (by omega), hend _ o (by omega)]

/-- A pass over a part and a pass over what follows it see what one pass over both does,
    when they meet at a multiple of 512. -/
theorem firstHit_split {mid e : Nat} (hmid : mid % dirblksiz = 0) (hle : mid ≤ e) :
    ∀ (f o : Nat), o ≤ mid → e - o ≤ f → firstHit D dirchk name e f o =
      (firstHit D dirchk name mid f o).or (firstHit D dirchk name e f mid) := by
  intro f
  induction f with
  | zero => exact fun o _ _ => rfl
  | succ f ih =>
    intro o ho hf
    by_cases hlt : o < mid
    · have hforward : 0 < dirblksiz - o % dirblksiz :=
        Nat.sub_pos_of_lt (Nat.mod_lt _ (by decide))
      have hnext : o + (dirblksiz - o % dirblksiz) ≤ mid := by
        unfold dirblksiz at hmid ⊢
        omega
      have hrest : firstHit D dirchk name e (f + 1) mid = firstHit D dirchk name e f mid :=
        firstHit_fuel _ _ _ (by omega) (by omega)
      rw [hrest, firstHit, firstHit, if_pos (show o < e by omega), if_pos hlt]
      by_cases hbad : mangled D dirchk o o = true
      · rw [if_pos hbad, if_pos hbad]
        exact ih _ hnext (by omega)
      obtain ⟨hpos, hreclen⟩ := reclen_pos hbad
      rw [if_neg hbad, if_neg hbad]
      by_cases hhit : nameMatch D name o = true
      · rw [if_pos hhit, if_pos hhit, Option.some_or]
      · rw [if_neg hhit, if_neg hhit]
        exact ih _ (by omega) (by omega)
    have heq : o = mid := by omega
    rw [heq]
    conv_rhs => rw [firstHit, if_neg (lt_irrefl mid)]
    rw [Option.none_or]

/-- A place a pass is at: a record of a block, or the end of the directory. -/
def AtRecord (D : Directory) (o : Nat) : Prop :=
  D.iSize ≤ o ∨ ∃ b os, b < D.nblocks ∧ (∀ x ∈ o :: os, x ∈ D.records b) ∧
    Tiles D o (o :: os) (dirblksiz * (b + 1))

-- The first record of a block.
theorem atRecord_block (hD : D.Ok) (b : Nat) : AtRecord D (dirblksiz * b) := by
  by_cases hb : b < D.nblocks
  · have htile := hD.tiles b hb
    cases hrec : D.records b with
    | nil =>
      rw [hrec] at htile
      have : dirblksiz * b = dirblksiz * (b + 1) := htile
      unfold dirblksiz at this
      omega
    | cons o os =>
      rw [hrec] at htile
      obtain rfl : o = dirblksiz * b := htile.1
      exact .inr ⟨b, os, hb, fun x hx => by rw [hrec]; exact hx, htile⟩
  · rw [AtRecord, hD.size_eq]
    exact .inl (Nat.mul_le_mul_left _ (by omega))

/-- From a record a pass goes to a record. -/
theorem AtRecord.next (hD : D.Ok) {o : Nat} (h : AtRecord D o) (hlt : o < D.iSize) :
    o ∈ D.records (o / dirblksiz) ∧ AtRecord D (o + (dirblksiz - o % dirblksiz)) ∧
      AtRecord D (o + D.dReclen o) := by
  rcases h with hge | ⟨b, os, hb, hmem, htile⟩
  · omega
  have ho := hmem o List.mem_cons_self
  have hdiv := hD.div_of_mem hb ho
  have hend : o + (dirblksiz - o % dirblksiz) = dirblksiz * (b + 1) := by
    have hlt' := Nat.mod_lt o (show 0 < dirblksiz by decide)
    have hsum := Nat.div_add_mod o dirblksiz
    rw [hdiv] at hsum
    rw [Nat.mul_add, Nat.mul_one]
    omega
  refine ⟨by rw [hdiv]; exact ho, by rw [hend]; exact atRecord_block hD (b + 1), ?_⟩
  cases os with
  | nil =>
    have heq : o + D.dReclen o = dirblksiz * (b + 1) := htile.2.2.2
    rw [heq]
    exact atRecord_block hD (b + 1)
  | cons o' os =>
    have hrest := htile.2.2.2
    obtain rfl : o' = o + D.dReclen o := hrest.1
    exact .inr ⟨b, os, hb, fun x hx => hmem x (List.mem_cons_of_mem o hx), hrest⟩

/-- What a pass over a well formed directory finds is the record of the name. -/
theorem firstHit_live (hD : D.Ok) {e : Nat} (he : e ≤ D.iSize) : ∀ (f o a : Nat), AtRecord D o →
    firstHit D dirchk name e f o = some a → D.live a = some name := by
  intro f
  induction f with
  | zero => exact fun o a _ h => absurd h nofun
  | succ f ih =>
    intro o a ho h
    rw [firstHit] at h
    split at h
    case isFalse => exact absurd h nofun
    case isTrue hlt =>
    obtain ⟨hmem, hblock, hrecord⟩ := ho.next hD (by omega)
    split at h
    case isTrue => exact ih _ a hblock h
    case isFalse =>
    split at h
    case isTrue hhit =>
      rw [Option.some.injEq] at h
      subst h
      obtain ⟨hino, hlen, -, hname⟩ := of_decide_eq_true hhit
      refine live_eq_some.mpr ⟨by omega, hmem, hino, ?_⟩
      rw [Directory.name, hlen, ← hname]
    case isFalse => exact ih _ a hrecord h

end Hits

theorem roundup2_size (hD : D.Ok) : roundup2 D.iSize dirblksiz = D.iSize := by
  have hsize := hD.size
  unfold roundup2 dirblksiz at *
  omega

/-- A pass that has found a record has not come to its end. -/
theorem endOf_some (D : Directory) (env : SearchEnv) (a : Nat) :
    endOf D env (some a) ≠ .exhausted := by
  simp only [endOf]
  split
  · exact nofun
  · exact nofun

theorem endOf_found {h : Option Nat} {ino : Nat} (heq : endOf D env h = .found ino) :
    ∃ a, h = some a := by
  cases h with
  | none => exact absurd heq nofun
  | some a => exact ⟨a, rfl⟩

/-- Wherever the last lookup has ended, a lookup has the result that it has from the
    beginning, and finds the same record. -/
theorem lookupIno_diroff (hD : D.Ok) (henv : env.Ok) (islastcn : Bool) (name : Name) (v fuel : Nat)
    (hfuel : D.iSize < fuel) : ∃ p p' r,
    lookupIno D env .lookup islastcn name (keptDiroff v) fuel = some (p, r) ∧
      lookupIno D env .lookup islastcn name 0 fuel = some (p', r) ∧
      ∀ ino, r = .found ino → p.iOffset = p'.iOffset ∧ D.live p.iOffset = some name := by
  have hcreate : ¬((Nameiop.lookup = .create ∨ Nameiop.lookup = .rename) ∧ islastcn = true) := by
    simp
  have hstart : AtRecord D 0 := atRecord_block hD 0
  unfold lookupIno
  simp only [if_neg hcreate, roundup2_size hD]
  generalize hp₀ : (⟨0, 0, none, .found, -1, 0, 0, 0, 0⟩ : Pass) = p₀
  have hzero : p₀.iOffset = 0 := by rw [← hp₀]
  have hsynced : ∀ p : Pass, p.iOffset = 0 → Synced env p := by
    intro p hp hne
    rw [hp, Nat.zero_mod] at hne
    exact absurd rfl hne
  -- One pass from the beginning.
  obtain ⟨p', hone, hp'⟩ := @searchLoop_eq D env name 0 D.iSize henv fuel p₀
    (by omega) (hsynced p₀ hzero)
  rw [hzero] at hone hp'
  have hfound : ∀ a, firstHit D env.dirchk name D.iSize fuel 0 = some a →
      D.live a = some name := fun a => firstHit_live hD le_rfl fuel 0 a hstart
  have hsingle : (Nameiop.lookup ≠ .lookup ∨ True ∨ 0 ≥ D.iSize) := .inr (.inl trivial)
  rw [if_pos hsingle, hone]
  by_cases hwhole : Nameiop.lookup ≠ .lookup ∨ keptDiroff v = 0 ∨ keptDiroff v ≥ D.iSize
  · rw [if_pos hwhole]
    refine ⟨p', p', _, rfl, rfl, fun ino hr => ⟨rfl, ?_⟩⟩
    obtain ⟨a, ha⟩ := endOf_found hr
    rw [hp' a ha]
    exact hfound a ha
  rw [if_neg hwhole]
  have hread : (if keptDiroff v % env.iosize ≠ 0 then env.blkatoff (keptDiroff v) else none) =
      none := by
    split
    · exact henv.readable _
    · rfl
  have hmid : keptDiroff v % dirblksiz = 0 := Nat.mul_mod_left _ _
  have hle : keptDiroff v ≤ D.iSize := by omega
  generalize keptDiroff v = d at hread hmid hle ⊢
  rw [hread]
  dsimp only
  have hmid_at : AtRecord D d := by
    have hmul : dirblksiz * (d / dirblksiz) = d := Nat.mul_div_cancel' (Nat.dvd_of_mod_eq_zero hmid)
    have hat := atRecord_block hD (d / dirblksiz)
    rwa [hmul] at hat
  -- The pass over the rest, and the pass over the part before it.
  have hsplit := @firstHit_split D name env.dirchk d D.iSize hmid hle fuel 0
    zero_le (by omega)
  obtain ⟨p₁, hrest, hp₁⟩ := @searchLoop_eq D env name 0 D.iSize henv fuel
    { p₀ with iOffset := d, entryoffsetinblock := d % env.iosize, prevoff := d,
              bp := if d % env.iosize ≠ 0 then some (d - d % env.iosize) else none }
    (by dsimp only; omega) (fun hne => ⟨if_pos hne, rfl⟩)
  rw [← hp₀] at hrest
  rw [hrest]
  dsimp only at hp₁ ⊢
  cases hhit : firstHit D env.dirchk name D.iSize fuel d with
  | some a =>
    have hlive := firstHit_live hD le_rfl fuel d a hmid_at hhit
    -- The name is not there twice.
    have hsame : firstHit D env.dirchk name D.iSize fuel 0 = some a := by
      rw [hsplit, hhit]
      cases hbefore : firstHit D env.dirchk name d fuel 0 with
      | none => rfl
      | some a' =>
        rw [hD.names (firstHit_live hD hle fuel 0 a' hstart hbefore) hlive]
        rfl
    rw [hsame]
    refine ⟨p₁, p', endOf D env (some a), ?_, rfl, fun ino _ => ?_⟩
    · have hne := endOf_some D env a
      generalize endOf D env (some a) = r at hne ⊢
      cases r with
      | exhausted => exact absurd rfl hne
      | error errno | fault | whiteout | found ino => rfl
    · rw [hp₁ a hhit, hp' a hsame]
      exact ⟨rfl, hlive⟩
  | none =>
    rw [hhit, Option.or_none] at hsplit
    obtain ⟨p₂, hbegin, hp₂⟩ := @searchLoop_eq D env name 0 d henv fuel
      { p₁ with iOffset := 0 } (by dsimp only; omega) (hsynced _ rfl)
    refine ⟨p₂, p', _, hbegin, ?_, fun ino hr => ?_⟩
    · rw [hsplit]
    obtain ⟨a, ha⟩ := endOf_found hr
    rw [hp₂ a ha, hp' a (by rw [hsplit]; exact ha)]
    exact ⟨rfl, firstHit_live hD hle fuel 0 a hstart ha⟩

end FreeBSDKern.Dir
