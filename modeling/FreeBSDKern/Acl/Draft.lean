import FreeBSDKern.Acl.Model

/-!
# Setting a Mode on an ACL

`acl_nfs4_sync_acl_from_mode_draft` walks an ACL that grows under it. An entry that
is inherited is split, the entries of the three classes lose the permissions of the
mode, and an entry that allows something to a named user or group gets an entry in
front of it that denies what the mode does not give. Six entries at the end then say
what the mode says. `acl_nfs4_compute_inherited_acl_psarc` builds an ACL from the mode
and puts the named entries of a parent into the middle of it.

The array is a list here, the last entry first while it is walked; it is as long as the
array has to be (`Acl.Repeat` says when that is more than it has room for).

## Main definitions

* `syncAclFromModeDraft`, `computeInheritedAclPsarc`, `trivialFromMode`: The functions.
* `DraftStep`: What the walk does with one entry.

## Theorems

* `draftEntry_step`: A turn of the walk is one of five steps.
* `maskPair_bits`: The permissions of an entry and of the one in front of it.
* `draft_shape`: The result ends in the six entries of the mode.
* `mode_honoured`: What is read off the results, and whom they allow what.
-/

namespace FreeBSDKern.Acl

def aclReadNamedAttrs : BitVec 32 := 0x0040#32
def aclWriteNamedAttrs : BitVec 32 := 0x0080#32
def aclReadAttributes : BitVec 32 := 0x0200#32
def aclWriteAttributes : BitVec 32 := 0x0400#32
def aclReadAcl : BitVec 32 := 0x1000#32
def aclWriteAcl : BitVec 32 := 0x2000#32
def aclWriteOwner : BitVec 32 := 0x4000#32
def aclSynchronize : BitVec 32 := 0x8000#32

section Walk

/-- `ACL_READ_DATA`, `ACL_WRITE_DATA`, `ACL_APPEND_DATA` and `ACL_EXECUTE`. -/
def dataBits : BitVec 32 := aclReadData ||| aclWriteData ||| aclAppendData ||| aclExecute

/-- An entry of `owner@`, `group@` or `everyone@`. -/
def AclEntry.special (e : AclEntry) : Bool :=
  e.tag = .userObj ∨ e.tag = .groupObj ∨ e.tag = .everyone

def AclEntry.splits (e : AclEntry) : Bool :=
  has e.flags (aclEntryFileInherit ||| aclEntryDirectoryInherit)

/-- The first of the two entries that an inherited one becomes, in front of `e`. -/
def withCopy (e : AclEntry) (done : List AclEntry) : List AclEntry :=
  if e.splits then { e with flags := e.flags ||| aclEntryInheritOnly } :: done else done

/-- The second one, or the entry itself. -/
def AclEntry.plain (e : AclEntry) : AclEntry :=
  if e.splits then { e with flags := e.flags &&& ~~~(aclEntryFileInherit |||
    aclEntryDirectoryInherit ||| aclEntryNoPropagateInherit) }
  else e

def AclEntry.cleared (e : AclEntry) : AclEntry := { e with perm := e.perm &&& ~~~dataBits }

/-- The criteria of 1.5.1, for the entry in front of one that allows something. -/
def meets (previous e : AclEntry) : Bool :=
  previous.type = .deny ∧ previous.id = e.id ∧ previous.tag = e.tag ∧ previous.flags = 0#16 ∧
    ¬ has previous.perm (~~~e.perm) ∧ ¬ has previous.perm (~~~dataBits)

def AclEntry.prepended (e : AclEntry) : AclEntry := { e with perm := 0#32, type := .deny }

/-- The permissions for three bits of a mode. -/
def permsOf (r w x : Bool) : BitVec 32 :=
  (if r then aclReadData else 0#32) ||| (if w then aclWriteData ||| aclAppendData else 0#32) |||
    (if x then aclExecute else 0#32)

/-- 1.5.2 for one permission. -/
def maskBit (granted : Bool) (bit perm previous : BitVec 32) : BitVec 32 :=
  if ¬ has perm bit then previous
  else if granted then previous &&& ~~~bit else previous ||| bit

/-- 1.5.2 and 1.5.3: the entry in front, and the entry. -/
def maskPair (mode : BitVec 16) (owner : BitVec 32) (previous e : AclEntry) : AclEntry × AclEntry :=
  let amode := if e.tag = .user ∧ e.id = owner then mode >>> 3 >>> 3 else mode >>> 3
  let perm := maskBit (has amode 4#16) aclReadData e.perm previous.perm
  let perm := maskBit (has amode 2#16) aclWriteData e.perm perm
  let perm := maskBit (has amode 2#16) aclAppendData e.perm perm
  let perm := maskBit (has amode 1#16) aclExecute e.perm perm
  let extramode := if e.tag = .group then mode >>> 3 &&& 7#16 &&& ~~~(mode >>> 6) else 0#16
  let gone := permsOf (has extramode 4#16) (has extramode 2#16) (has extramode 1#16)
  ({ previous with perm := perm &&& ~~~gone }, { e with perm := e.perm &&& ~~~gone })

/-- An entry that allows something to a named user or group. -/
def draftNamed (mode : BitVec 16) (owner : BitVec 32) (done : List AclEntry) (e : AclEntry) :
    List AclEntry :=
  match done with
  | [] => [(maskPair mode owner e.prepended e).2, (maskPair mode owner e.prepended e).1]
  | previous :: rest =>
    if meets previous e then
      (maskPair mode owner previous e).2 :: (maskPair mode owner previous e).1 :: rest
    else
      (maskPair mode owner e.prepended e).2 :: (maskPair mode owner e.prepended e).1 :: done

/-- One entry of the walk; `done` are those before it, the last one first. -/
def draftEntry (mode : BitVec 16) (owner : BitVec 32) (done : List AclEntry) (e : AclEntry) :
    List AclEntry :=
  if ¬ e.effective then e :: done
  else if e.plain.special then e.plain.cleared :: withCopy e done
  else if e.plain.type ≠ .allow then e.plain :: withCopy e done
  else draftNamed mode owner (withCopy e done) e.plain

/-- `_acl_append`, and what `_acl_entry_matches` compares with. -/
def newEntry (tag : Tag) (perm : BitVec 32) (type : EntryType) : AclEntry :=
  ⟨tag, aclUndefinedId, perm, type, 0#16⟩

/-- `ACL_WRITE_ACL` and the other permissions that only the owner has. -/
def ownerBits : BitVec 32 :=
  aclWriteAcl ||| aclWriteOwner ||| aclWriteAttributes ||| aclWriteNamedAttrs

/-- `ACL_READ_ACL` and the other permissions that everyone has. -/
def everyoneBits : BitVec 32 :=
  aclReadAcl ||| aclReadAttributes ||| aclReadNamedAttrs ||| aclSynchronize

/-- The six entries before they are adjusted. -/
def canonicalSix : List AclEntry :=
  [newEntry .userObj 0#32 .deny, newEntry .userObj ownerBits .allow,
    newEntry .groupObj 0#32 .deny, newEntry .groupObj 0#32 .allow,
    newEntry .everyone ownerBits .deny, newEntry .everyone everyoneBits .allow]

/-- The permissions that three bits of a mode add. -/
def grantBits (mode r w x : BitVec 16) (perm : BitVec 32) : BitVec 32 :=
  perm ||| permsOf (has mode r) (has mode w) (has mode x)

def AclEntry.grant (mode r w x : BitVec 16) (e : AclEntry) : AclEntry :=
  { e with perm := grantBits mode r w x e.perm }

/-- 3. Of each two entries the second gets what the mode has and the first the rest. -/
def adjustSix (mode : BitVec 16) : List AclEntry → List AclEntry
  | [a1, a2, a3, a4, a5, a6] =>
    [a1.grant (~~~mode) sIrusr sIwusr sIxusr, a2.grant mode sIrusr sIwusr sIxusr,
      a3.grant (~~~mode) sIrgrp sIwgrp sIxgrp, a4.grant mode sIrgrp sIwgrp sIxgrp,
      a5.grant (~~~mode) sIroth sIwoth sIxoth, a6.grant mode sIroth sIwoth sIxoth]
  | acl => acl

def lastSix (acl : List AclEntry) : List AclEntry := acl.drop (acl.length - 6)

/-- 1. The entries after the walk. -/
def draftWalk (acl : List AclEntry) (mode : BitVec 16) (owner : BitVec 32) : List AclEntry :=
  (acl.foldl (draftEntry mode owner) []).reverse

def syncAclFromModeDraft (acl : List AclEntry) (mode : BitVec 16) (owner : BitVec 32) :
    List AclEntry :=
  let acl := draftWalk acl mode owner
  let acl := if acl.length < 6 ∨ lastSix acl ≠ canonicalSix then acl ++ canonicalSix else acl
  acl.take (acl.length - 6) ++ adjustSix mode (lastSix acl)

end Walk

section Psarc

/-- The flags of an inherited entry that allows or denies. -/
def inheritFlags (isDirectory : Bool) (flags : BitVec 16) : BitVec 16 :=
  let flags := if has flags aclEntryNoPropagateInherit ∨ ¬ isDirectory then
      flags &&& ~~~(aclEntryNoPropagateInherit ||| aclEntryFileInherit |||
        aclEntryDirectoryInherit ||| aclEntryInheritOnly)
    else flags
  if isDirectory ∧ has flags aclEntryFileInherit ∧ ¬ has flags aclEntryDirectoryInherit then
    flags ||| aclEntryInheritOnly
  else flags

/-- The permissions that are inherited. -/
def inheritPerm (mode : BitVec 16) (perm : BitVec 32) : BitVec 32 :=
  let perm := perm &&& ~~~ownerBits
  let perm := if ¬ has mode sIrgrp then perm &&& ~~~aclReadData else perm
  let perm := if ¬ has mode sIwgrp then perm &&& ~~~(aclWriteData ||| aclAppendData) else perm
  if ¬ has mode sIxgrp then perm &&& ~~~aclExecute else perm

/-- What becomes of an entry of the parent, if it is inherited. -/
def inheritEntry (mode : BitVec 16) (isDirectory : Bool) (e : AclEntry) : Option AclEntry :=
  if e.special then none
  else if ¬ has e.flags (aclEntryDirectoryInherit ||| aclEntryFileInherit) then none
  else if ¬ isDirectory ∧ ¬ has e.flags aclEntryFileInherit then none
  else if isDirectory ∧ ¬ has e.flags aclEntryDirectoryInherit ∧
      has e.flags aclEntryNoPropagateInherit then none
  else
    let e := { e with flags := e.flags &&& ~~~aclEntryInheritOnly ||| aclEntryInherited }
    if e.type ≠ .allow ∧ e.type ≠ .deny then some e
    else
      let e := { e with flags := inheritFlags isDirectory e.flags }
      if e.type = .allow ∧ ¬ has e.flags aclEntryInheritOnly then
        some { e with perm := inheritPerm mode e.perm }
      else some e

/-- An entry that is appended only if it has permissions. -/
def newEntryUnless (tag : Tag) (perm : BitVec 32) (type : EntryType) : List AclEntry :=
  if perm ≠ 0#32 then [newEntry tag perm type] else []

def computeInheritedAclPsarc (parent : Option (List AclEntry)) (mode : BitVec 16)
    (isDirectory : Bool) : List AclEntry :=
  let userAllow := grantBits mode sIrusr sIwusr sIxusr (everyoneBits ||| ownerBits)
  let groupAllow := grantBits mode sIrgrp sIwgrp sIxgrp everyoneBits
  let everyoneAllow := grantBits mode sIroth sIwoth sIxoth everyoneBits
  let userDeny := (groupAllow ||| everyoneAllow) &&& ~~~userAllow
  let groupDeny := everyoneAllow &&& ~~~groupAllow
  let userAllowFirst := groupDeny &&& ~~~userDeny
  newEntryUnless .userObj userAllowFirst .allow ++ newEntryUnless .userObj userDeny .deny ++
    newEntryUnless .groupObj groupDeny .deny ++
    (parent.elim [] fun p => p.filterMap (inheritEntry mode isDirectory)) ++
    [newEntry .userObj userAllow .allow, newEntry .groupObj groupAllow .allow,
      newEntry .everyone everyoneAllow .allow]

def trivialFromMode (mode : BitVec 16) : List AclEntry := computeInheritedAclPsarc none mode true

end Psarc

section Steps

/-- What a turn of the walk makes of the entries before it. -/
inductive DraftStep (mode : BitVec 16) (owner : BitVec 32) (done : List AclEntry) (e : AclEntry) :
    List AclEntry → Prop
  | skip : e.effective = false → DraftStep mode owner done e (e :: done)
  | clear : e.effective = true → e.special = true →
      DraftStep mode owner done e (e.plain.cleared :: withCopy e done)
  | deny : e.effective = true → e.special = false → e.type = .deny →
      DraftStep mode owner done e (e.plain :: withCopy e done)
  | met (previous : AclEntry) (rest : List AclEntry) :
      e.effective = true → e.special = false → e.type = .allow → e.splits = false →
      done = previous :: rest → meets previous e = true → DraftStep mode owner done e
        ((maskPair mode owner previous e).2 :: (maskPair mode owner previous e).1 :: rest)
  | prepend : e.effective = true → e.special = false → e.type = .allow →
      (∀ previous ∈ done.head?, e.splits = false → meets previous e = false) →
      DraftStep mode owner done e ((maskPair mode owner e.plain.prepended e.plain).2 ::
        (maskPair mode owner e.plain.prepended e.plain).1 :: withCopy e done)

@[simp] theorem plain_tag (e : AclEntry) : e.plain.tag = e.tag := by
  rw [AclEntry.plain]; split <;> rfl

@[simp] theorem plain_id (e : AclEntry) : e.plain.id = e.id := by
  rw [AclEntry.plain]; split <;> rfl

@[simp] theorem plain_type (e : AclEntry) : e.plain.type = e.type := by
  rw [AclEntry.plain]; split <;> rfl

@[simp] theorem plain_perm (e : AclEntry) : e.plain.perm = e.perm := by
  rw [AclEntry.plain]; split <;> rfl

@[simp] theorem plain_special (e : AclEntry) : e.plain.special = e.special := by
  rw [AclEntry.special, AclEntry.special, plain_tag]

variable {mode : BitVec 16} {owner : BitVec 32} {done : List AclEntry} {e : AclEntry}

theorem draftEntry_step : DraftStep mode owner done e (draftEntry mode owner done e) := by
  rw [draftEntry]
  split
  case isTrue h => exact .skip (by simpa using h)
  case isFalse h =>
  have heff : e.effective = true := by simpa using h
  split
  case isTrue hsp => exact .clear heff (by simpa using hsp)
  case isFalse hsp =>
  have hnamed : e.special = false := by simpa using hsp
  split
  case isTrue hdeny =>
    refine .deny heff hnamed ?_
    have := heff
    simp only [AclEntry.effective, decide_eq_true_eq] at this
    exact this.1.resolve_left (by simpa using hdeny)
  case isFalse hallow =>
  have htype : e.type = .allow := by simpa using hallow
  by_cases hsplit : e.splits
  · -- The entry in front is the other half of this one, which allows.
    have hcopy : withCopy e done =
        { e with flags := e.flags ||| aclEntryInheritOnly } :: done := if_pos hsplit
    have hno : meets { e with flags := e.flags ||| aclEntryInheritOnly } e.plain = false := by
      simp [meets, htype]
    have hstep : draftNamed mode owner (withCopy e done) e.plain =
        (maskPair mode owner e.plain.prepended e.plain).2 ::
          (maskPair mode owner e.plain.prepended e.plain).1 :: withCopy e done := by
      rw [hcopy, draftNamed, if_neg (by simp [hno])]
    rw [hstep]
    exact .prepend heff hnamed htype fun _ _ h => absurd hsplit (by simp [h])
  have hplain : e.plain = e := if_neg hsplit
  have hcopy : withCopy e done = done := if_neg hsplit
  rw [hcopy, hplain]
  have hprepend : (∀ previous ∈ done.head?, e.splits = false → meets previous e = false) →
      DraftStep mode owner done e ((maskPair mode owner e.prepended e).2 ::
        (maskPair mode owner e.prepended e).1 :: done) := by
    intro hno
    have : DraftStep mode owner done e _ := .prepend heff hnamed htype hno
    rwa [hcopy, hplain] at this
  cases done with
  | nil => exact hprepend (by simp)
  | cons previous rest =>
    rw [draftNamed]
    by_cases hmeets : meets previous e
    · rw [if_pos hmeets]
      exact .met previous rest heff hnamed htype (by simpa using hsplit) rfl hmeets
    · rw [if_neg hmeets]
      exact hprepend fun p hp _ => by simpa [← Option.some.inj hp] using hmeets

end Steps

section Pair

/-- The access that a permission of the mode belongs to, by the number of its bit. -/
def accessOf : Nat → Option Access
  | 0 => some .exec
  | 3 => some .read
  | 4 | 5 => some .write
  | _ => none

theorem has_four (x : BitVec 16) : has x 4#16 = x.getLsbD 2 := has_twoPow (k := 2) x (by decide)

theorem has_two (x : BitVec 16) : has x 2#16 = x.getLsbD 1 := has_twoPow (k := 1) x (by decide)

theorem has_one (x : BitVec 16) : has x 1#16 = x.getLsbD 0 := has_twoPow (k := 0) x (by decide)

/-- A bit of `permsOf`. -/
theorem permsOf_bit (r w x : Bool) (i : Nat) : (permsOf r w x).getLsbD i =
    (accessOf i).any fun | .read => r | .write => w | .exec => x := by
  by_cases hi : i < 32
  · revert i
    cases r <;> cases w <;> cases x <;> decide
  rw [BitVec.getLsbD_of_ge _ _ (not_lt.mp hi)]
  unfold accessOf
  split <;> first | omega | rfl

theorem maskBit_bit (granted : Bool) (perm previous : BitVec 32) {k : Nat} (hk : k < 32) (i : Nat) :
    (maskBit granted (BitVec.twoPow 32 k) perm previous).getLsbD i =
      if i = k ∧ perm.getLsbD k then !granted else previous.getLsbD i := by
  rw [maskBit, has_twoPow _ hk]
  by_cases hik : i = k
  · subst hik
    cases perm.getLsbD i <;> cases granted <;> simp [hk]
  have hne : ¬ (i = k ∧ perm.getLsbD k = true) := fun h => hik h.1
  rw [if_neg hne]
  cases perm.getLsbD k <;> cases granted <;> simp [Ne.symm hik]
  grind

variable (mode : BitVec 16) (owner : BitVec 32) (previous e : AclEntry)

/-- The group has the permission from the mode, and the owner does not. -/
def extra (a : Access) : Bool :=
  mode.getLsbD (modeBit .group a) && !mode.getLsbD (modeBit .owner a)

theorem amode_bit (c : Prop) [Decidable c] (a : Access) :
    (if c then mode >>> 3 >>> 3 else mode >>> 3).getLsbD (modeBit .other a) =
      mode.getLsbD (modeBit (if c then .owner else .group) a) := by
  split <;> cases a <;> simp [modeBit]

theorem extramode_bit (c : Prop) [Decidable c] (a : Access) :
    (if c then mode >>> 3 &&& 7#16 &&& ~~~(mode >>> 6) else 0#16).getLsbD (modeBit .other a) =
      (decide c && extra mode a) := by
  by_cases hc : c <;> cases a <;> simp [hc, modeBit, extra]

theorem maskPair_bits {i : Nat} {a : Access} (hi : accessOf i = some a) :
    (maskPair mode owner previous e).2.perm.getLsbD i =
        (e.perm.getLsbD i && !(decide (e.tag = .group) && extra mode a)) ∧
      (maskPair mode owner previous e).1.perm.getLsbD i = ((if e.perm.getLsbD i then
          !mode.getLsbD (modeBit (if e.tag = .user ∧ e.id = owner then .owner else .group) a)
        else previous.perm.getLsbD i) && !(decide (e.tag = .group) && extra mode a)) := by
  rw [maskPair]
  generalize ham : (if e.tag = .user ∧ e.id = owner then mode >>> 3 >>> 3 else mode >>> 3) = am
  generalize hex : (if e.tag = .group then mode >>> 3 &&& 7#16 &&& ~~~(mode >>> 6) else 0#16) = ex
  have hgranted : ∀ b, am.getLsbD (modeBit .other b) =
      mode.getLsbD (modeBit (if e.tag = .user ∧ e.id = owner then .owner else .group) b) :=
    fun b => ham ▸ amode_bit mode _ b
  have hgone : ∀ b, ex.getLsbD (modeBit .other b) = (decide (e.tag = .group) && extra mode b) :=
    fun b => hex ▸ extramode_bit mode _ b
  simp only [has_four, has_two, has_one]
  rw [← hgranted, ← hgone]
  have hpos : i = 0 ∧ a = .exec ∨ i = 3 ∧ a = .read ∨ i = 4 ∧ a = .write ∨ i = 5 ∧ a = .write := by
    unfold accessOf at hi
    split at hi <;> simp_all
  simp only [show aclReadData = BitVec.twoPow 32 3 from rfl,
    show aclWriteData = BitVec.twoPow 32 4 from rfl,
    show aclAppendData = BitVec.twoPow 32 5 from rfl, show aclExecute = BitVec.twoPow 32 0 from rfl,
    BitVec.getLsbD_and, BitVec.getLsbD_not, permsOf_bit]
  rw [maskBit_bit _ _ _ (by decide), maskBit_bit _ _ _ (by decide), maskBit_bit _ _ _ (by decide),
    maskBit_bit _ _ _ (by decide)]
  rcases hpos with ⟨rfl, rfl⟩ | ⟨rfl, rfl⟩ | ⟨rfl, rfl⟩ | ⟨rfl, rfl⟩ <;>
    simp [accessOf, modeBit]

theorem maskPair_other {i : Nat} (hi : accessOf i = none) :
    (maskPair mode owner previous e).2.perm.getLsbD i = e.perm.getLsbD i ∧
      (maskPair mode owner previous e).1.perm.getLsbD i = previous.perm.getLsbD i := by
  have hpos : i ≠ 0 ∧ i ≠ 3 ∧ i ≠ 4 ∧ i ≠ 5 := by
    unfold accessOf at hi
    split at hi <;> simp_all
  rw [maskPair]
  simp only [show aclReadData = BitVec.twoPow 32 3 from rfl,
    show aclWriteData = BitVec.twoPow 32 4 from rfl,
    show aclAppendData = BitVec.twoPow 32 5 from rfl, show aclExecute = BitVec.twoPow 32 0 from rfl,
    BitVec.getLsbD_and, BitVec.getLsbD_not, permsOf_bit, hi]
  rw [maskBit_bit _ _ _ (by decide), maskBit_bit _ _ _ (by decide), maskBit_bit _ _ _ (by decide),
    maskBit_bit _ _ _ (by decide)]
  by_cases hlt : i < 32
  · simp [hpos, hlt]
  · simp [hpos, BitVec.getLsbD_of_ge _ _ (not_lt.mp hlt)]

end Pair

section Walk

variable {mode : BitVec 16} {owner : BitVec 32} {acl : List AclEntry}

/-- What every turn keeps holds after the walk. -/
theorem draftWalk_keeps {P : List AclEntry → Prop} (hnil : P [])
    (hstep : ∀ done e out, P done → DraftStep mode owner done e out → P out) :
    ∃ done, draftWalk acl mode owner = done.reverse ∧ P done := by
  refine ⟨_, rfl, ?_⟩
  have hrun : ∀ (acl done : List AclEntry), P done → P (acl.foldl (draftEntry mode owner) done) := by
    intro acl
    induction acl with
    | nil => exact fun _ h => h
    | cons e es ih => exact fun done h => ih _ (hstep done e _ h draftEntry_step)
  exact hrun acl [] hnil

theorem lastSix_append (pre : List AclEntry) : lastSix (pre ++ canonicalSix) = canonicalSix := by
  rw [lastSix, List.length_append, show canonicalSix.length = 6 from rfl, Nat.add_sub_cancel,
    List.drop_left]

theorem draft_shape (acl : List AclEntry) (mode : BitVec 16) (owner : BitVec 32) :
    ∃ pre, syncAclFromModeDraft acl mode owner = pre ++ adjustSix mode canonicalSix ∧
      (draftWalk acl mode owner = pre ∧ ¬ canonicalSix <:+ draftWalk acl mode owner ∨
        draftWalk acl mode owner = pre ++ canonicalSix) := by
  rw [syncAclFromModeDraft]
  generalize draftWalk acl mode owner = core
  by_cases hsix : core.length < 6 ∨ lastSix core ≠ canonicalSix
  · refine ⟨core, ?_, .inl ⟨rfl, ?_⟩⟩
    · simp only [if_pos hsix, lastSix_append, List.length_append,
        show canonicalSix.length = 6 from rfl, Nat.add_sub_cancel, List.take_left]
    rintro ⟨pre, rfl⟩
    rw [lastSix_append, List.length_append, show canonicalSix.length = 6 from rfl] at hsix
    exact hsix.elim (by omega) fun h => h rfl
  have hlast : lastSix core = canonicalSix := by
    by_contra h
    exact hsix (.inr h)
  refine ⟨core.take (core.length - 6), ?_, .inr ?_⟩
  · simp only [if_neg hsix]
    rw [hlast]
  · rw [← hlast, lastSix, List.take_append_drop]

/-- An entry of a class has nothing left of what the mode decides. -/
def Bare (e : AclEntry) : Prop :=
  e.effective = true → e.special = true → ∀ i a, accessOf i = some a → e.perm.getLsbD i = false

theorem bare_of_named {e : AclEntry} (h : e.special = false) : Bare e :=
  fun _ hsp => nomatch hsp.symm.trans h

theorem effective_copy (e : AclEntry) :
    AclEntry.effective { e with flags := e.flags ||| aclEntryInheritOnly } = false := by
  have hbit : has (e.flags ||| aclEntryInheritOnly) aclEntryInheritOnly = true := by
    rw [show aclEntryInheritOnly = BitVec.twoPow 16 3 from rfl, has_twoPow _ (by decide)]
    simp
  simp [AclEntry.effective, hbit]

theorem effective_plain {e e' : AclEntry} (h : e.effective = true) (htype : e'.type = .deny)
    (hflags : e'.flags = e.plain.flags) : e'.effective = true := by
  simp only [AclEntry.effective, decide_eq_true_eq] at h ⊢
  refine ⟨.inr htype, ?_⟩
  have hno := h.2
  rw [show aclEntryInheritOnly = BitVec.twoPow 16 3 from rfl, has_twoPow _ (by decide)] at hno ⊢
  rw [hflags, AclEntry.plain]
  split
  · exact fun hbit => hno (Bool.and_eq_true _ _ ▸ BitVec.getLsbD_and ▸ hbit).1
  · exact hno

/-- A property that entries without effect have is kept when one is put in front. -/
theorem withCopy_keeps {P : AclEntry → Prop} {done : List AclEntry} (e : AclEntry)
    (hskip : ∀ e : AclEntry, e.effective = false → P e) (h : ∀ e ∈ done, P e) :
    ∀ e' ∈ withCopy e done, P e' := by
  rw [withCopy]
  split
  · exact List.forall_mem_cons.mpr ⟨hskip _ (effective_copy e), h⟩
  · exact h

theorem draftWalk_bare : ∀ e ∈ draftWalk acl mode owner, Bare e := by
  have hskip : ∀ e : AclEntry, e.effective = false → Bare e := fun _ h heff => nomatch heff.symm.trans h
  obtain ⟨done, heq, hdone⟩ : ∃ done : List AclEntry,
      draftWalk acl mode owner = done.reverse ∧ ∀ e ∈ done, Bare e :=
    @draftWalk_keeps _ _ _ (fun done => ∀ e ∈ done, Bare e) nofun fun done e out h hstep => by
      cases hstep with
      | skip heff => exact List.forall_mem_cons.mpr ⟨hskip e heff, h⟩
      | clear heff hsp =>
        refine List.forall_mem_cons.mpr ⟨fun _ _ i a hi => ?_, withCopy_keeps e hskip h⟩
        have hdata : dataBits = permsOf true true true := rfl
        rw [AclEntry.cleared, BitVec.getLsbD_and, BitVec.getLsbD_not, hdata, permsOf_bit, hi]
        cases a <;> simp
      | deny heff hnamed htype =>
        exact List.forall_mem_cons.mpr ⟨bare_of_named (by simpa using hnamed),
          withCopy_keeps e hskip h⟩
      | met previous rest heff hnamed htype hsplit hdone hmeets =>
        have htag : previous.tag = e.tag := by simp [meets] at hmeets; exact hmeets.2.2.1
        subst hdone
        refine List.forall_mem_cons.mpr ⟨bare_of_named hnamed, List.forall_mem_cons.mpr
          ⟨bare_of_named ?_, (List.forall_mem_cons.mp h).2⟩⟩
        rw [maskPair, AclEntry.special, htag]
        exact hnamed
      | prepend heff hnamed htype hno =>
        have hplain : e.plain.special = false := by simpa using hnamed
        exact List.forall_mem_cons.mpr ⟨bare_of_named hplain, List.forall_mem_cons.mpr
          ⟨bare_of_named hplain, withCopy_keeps e hskip h⟩⟩
  rw [heq]
  simpa using hdone

end Walk

section Bound

variable {mode : BitVec 16} {cred : Ucred} {fileUid fileGid : BitVec 32} {i : Nat} {a : Access}

theorem allows_append (who : AclEntry → Bool) (acl acl' : List AclEntry) :
    allows who (acl ++ acl') i =
      if (first who acl i).isSome then allows who acl i else allows who acl' i := by
  rw [allows, allows, allows, first_append]
  cases first who acl i <;> rfl

/-- Nothing is allowed by the entries of the walk so far, the last one first. -/
def Quiet (who : AclEntry → Bool) (i : Nat) (done : List AclEntry) : Prop :=
  allows who done.reverse i = false

theorem Quiet.cons {who : AclEntry → Bool} {done : List AclEntry} {e : AclEntry}
    (h : Quiet who i done)
    (he : e.effective = true → who e = true → e.perm.getLsbD i = true → e.type ≠ .allow) :
    Quiet who i (e :: done) := by
  rw [Quiet, List.reverse_cons, allows_append]
  split
  · exact h
  rw [allows, first_cons]
  split
  case isTrue hspeaks =>
    simp only [Bool.and_eq_true] at hspeaks
    simpa using he hspeaks.1.1 hspeaks.1.2 hspeaks.2
  case isFalse => rfl

/-- What is denied in front of an entry is not allowed by it. -/
theorem Quiet.pair {who : AclEntry → Bool} {done : List AclEntry} {p e : AclEntry}
    (h : Quiet who i done) (htype : p.type = .deny)
    (hp : who e = true → e.perm.getLsbD i = true →
      p.effective = true ∧ who p = true ∧ p.perm.getLsbD i = true) :
    Quiet who i (e :: p :: done) := by
  have hq : Quiet who i (p :: done) := h.cons fun _ _ _ => htype ▸ nofun
  rw [Quiet, List.reverse_cons, allows_append]
  split
  · exact hq
  case isFalse hnone =>
  rw [allows, first_cons]
  split
  case isTrue hspeaks =>
    simp only [Bool.and_eq_true] at hspeaks
    obtain ⟨heff, hwho, hbit⟩ := hp hspeaks.1.2 hspeaks.2
    -- The entry in front would have been found.
    rw [List.reverse_cons, first_append, first_cons, heff, hwho, hbit] at hnone
    simp at hnone
  case isFalse => rfl

theorem Quiet.tail {who : AclEntry → Bool} {done : List AclEntry} {e : AclEntry}
    (h : Quiet who i (e :: done)) : Quiet who i done := by
  rw [Quiet, List.reverse_cons, allows_append] at h
  split at h
  · exact h
  case isFalse hnone =>
  rw [Quiet, allows]
  cases hf : first who done.reverse i with
  | none => rfl
  | some e' => simp [hf] at hnone

/-- The mode does not give the permission to the owner, if the credential is the
    owner, and otherwise neither to the group nor to the others. -/
def Withheld (mode : BitVec 16) (cred : Ucred) (fileUid : BitVec 32) (a : Access) : Prop :=
  if fileUid = cred.uid then mode.getLsbD (modeBit .owner a) = false
  else mode.getLsbD (modeBit .group a) = false ∧ mode.getLsbD (modeBit .other a) = false

/-- The two entries for a named user or group allow nothing that is withheld. -/
theorem maskPair_quiet {done : List AclEntry} {p e : AclEntry} (hi : accessOf i = some a)
    (hw : Withheld mode cred fileUid a) (h : Quiet (·.matches cred fileUid fileGid) i done)
    (htype : p.type = .deny) (heff : p.effective = true) (htag : p.tag = e.tag) (hid : p.id = e.id)
    (hnamed : e.special = false) : Quiet (·.matches cred fileUid fileGid) i
      ((maskPair mode fileUid p e).2 :: (maskPair mode fileUid p e).1 :: done) := by
  obtain ⟨he, hp⟩ := maskPair_bits mode fileUid p e hi
  refine h.pair htype fun hwho hbit => ⟨heff, ?_, ?_⟩
  · simp only [maskPair, AclEntry.matches, htag, hid] at hwho ⊢
    exact hwho
  rw [he] at hbit
  rw [hp]
  simp only [maskPair, AclEntry.matches] at hwho
  rw [Withheld] at hw
  simp only [Bool.and_eq_true] at hbit ⊢
  refine ⟨?_, hbit.2⟩
  rw [if_pos hbit.1]
  simp only [AclEntry.special, decide_eq_false_iff_not, not_or] at hnamed
  cases htg : e.tag with
  | userObj => exact absurd htg hnamed.1
  | groupObj => exact absurd htg hnamed.2.1
  | everyone => exact absurd htg hnamed.2.2
  | user =>
    simp only [htg] at hwho
    have hwho : e.id = cred.uid := of_decide_eq_true hwho
    by_cases hown : fileUid = cred.uid
    · simp_all
    · have hne : e.id ≠ fileUid := fun h => hown (h.symm.trans hwho)
      simp_all
  | group =>
    simp only [htg, extra] at hbit
    by_cases hown : fileUid = cred.uid <;> simp_all

theorem draft_quiet (acl : List AclEntry) (fileGid : BitVec 32) (hi : accessOf i = some a)
    (hw : Withheld mode cred fileUid a) : ∃ done, draftWalk acl mode fileUid = done.reverse ∧
      Quiet (·.matches cred fileUid fileGid) i done := by
  refine draftWalk_keeps rfl fun done e out h hstep => ?_
  have hcopy : Quiet (·.matches cred fileUid fileGid) i (withCopy e done) := by
    rw [withCopy]
    split
    · exact h.cons fun heff => nomatch heff.symm.trans (effective_copy e)
    · exact h
  have hdata : dataBits = permsOf true true true := rfl
  cases hstep with
  | skip heff => exact h.cons fun h => nomatch h.symm.trans heff
  | clear heff hsp =>
    refine hcopy.cons fun _ _ hbit => ?_
    rw [AclEntry.cleared, BitVec.getLsbD_and, BitVec.getLsbD_not, hdata, permsOf_bit, hi] at hbit
    cases a <;> simp at hbit
  | deny heff hnamed htype => exact hcopy.cons fun _ _ _ => by simp [htype]
  | met previous rest heff hnamed htype hsplit hdone hmeets =>
    subst hdone
    simp only [meets, decide_eq_true_eq] at hmeets
    refine maskPair_quiet hi hw h.tail hmeets.1 ?_ hmeets.2.2.1 hmeets.2.1 hnamed
    simp [AclEntry.effective, hmeets.1, hmeets.2.2.2.1, has]
  | prepend heff hnamed htype hno =>
    refine maskPair_quiet hi hw hcopy rfl ?_ rfl rfl (by simpa using hnamed)
    exact @effective_plain e e.plain.prepended heff rfl rfl

end Bound

section Six

/-- Who is concerned by the entries of the three classes. -/
structure Concerns (who : AclEntry → Bool) (own grp : Bool) : Prop where
  owner : ∀ perm type, who (newEntry .userObj perm type) = own
  group : ∀ perm type, who (newEntry .groupObj perm type) = grp
  everyone : ∀ perm type, who (newEntry .everyone perm type) = true

theorem Concerns.credential (cred : Ucred) (fileUid fileGid : BitVec 32) :
    Concerns (·.matches cred fileUid fileGid) (fileUid = cred.uid) (groupmember fileGid cred) :=
  ⟨fun _ _ => rfl, fun _ _ => rfl, fun _ _ => rfl⟩

theorem Concerns.cls (c : Cls) : Concerns (·.counts c) (c = .owner) (c = .group) := by
  refine ⟨fun _ _ => ?_, fun _ _ => ?_, fun _ _ => ?_⟩ <;> simp [AclEntry.counts, newEntry]

/-- The bits of a mode that a class has. -/
def clsBits (mode : BitVec 16) (c : Cls) (i : Nat) : Bool :=
  (accessOf i).any fun a => mode.getLsbD (modeBit c a)

/-- What a mode allows to someone who is the owner, is in the group, or neither. -/
def modeAllows (mode : BitVec 16) (own grp : Bool) (i : Nat) : Bool :=
  everyoneBits.getLsbD i || if own then ownerBits.getLsbD i || clsBits mode .owner i
    else if grp then clsBits mode .group i else clsBits mode .other i

variable {who : AclEntry → Bool} {own grp : Bool} (mode : BitVec 16) (i : Nat)

theorem grantBits_bit (c : Cls) (perm : BitVec 32) {r w x : BitVec 16}
    (hr : r = BitVec.twoPow 16 (modeBit c .read)) (hw : w = BitVec.twoPow 16 (modeBit c .write))
    (hx : x = BitVec.twoPow 16 (modeBit c .exec)) :
    (grantBits mode r w x perm).getLsbD i = (perm.getLsbD i || clsBits mode c i) := by
  have hlt : ∀ a, modeBit c a < 16 := by cases c <;> intro a <;> cases a <;> decide
  rw [grantBits, BitVec.getLsbD_or, permsOf_bit, hr, hw, hx, has_twoPow _ (hlt _),
    has_twoPow _ (hlt _), has_twoPow _ (hlt _), clsBits]
  cases accessOf i with
  | none => rfl
  | some a => cases a <;> rfl

/-- Neither of the fixed permissions is one of the mode, and none is in both sets. -/
theorem fixed_bits : ((accessOf i).isSome = true → ownerBits.getLsbD i = false ∧
    everyoneBits.getLsbD i = false) ∧ (ownerBits.getLsbD i && everyoneBits.getLsbD i) = false := by
  by_cases hi : i < 32
  · revert i
    decide
  · rw [BitVec.getLsbD_of_ge _ _ (not_lt.mp hi), BitVec.getLsbD_of_ge _ _ (not_lt.mp hi)]
    exact ⟨fun _ => ⟨rfl, rfl⟩, rfl⟩

theorem clsBits_not (c : Cls) :
    clsBits (~~~mode) c i = ((accessOf i).isSome && !clsBits mode c i) := by
  rw [clsBits, clsBits]
  cases accessOf i with
  | none => rfl
  | some a => cases c <;> cases a <;> simp [modeBit]

theorem clsBits_isSome (c : Cls) (h : (accessOf i).isSome = false) : clsBits mode c i = false := by
  rw [clsBits, Option.isSome_eq_false_iff.mp h |> Option.isNone_iff_eq_none.mp]
  rfl

theorem allows_newEntry (tag : Tag) (perm : BitVec 32) {type : EntryType} (acl : List AclEntry)
    (h : type = .allow ∨ type = .deny) : allows who (newEntry tag perm type :: acl) i =
      if who (newEntry tag perm type) && perm.getLsbD i then decide (type = .allow)
      else allows who acl i := by
  have heff : (newEntry tag perm type).effective = true := by
    simpa [AclEntry.effective, newEntry, has] using h
  rw [allows, allows, first_cons, heff, Bool.true_and, show (newEntry tag perm type).perm = perm from rfl]
  cases who (newEntry tag perm type) && perm.getLsbD i <;> rfl

theorem adjustSix_eq : adjustSix mode canonicalSix =
    [newEntry .userObj (grantBits (~~~mode) sIrusr sIwusr sIxusr 0#32) .deny,
      newEntry .userObj (grantBits mode sIrusr sIwusr sIxusr ownerBits) .allow,
      newEntry .groupObj (grantBits (~~~mode) sIrgrp sIwgrp sIxgrp 0#32) .deny,
      newEntry .groupObj (grantBits mode sIrgrp sIwgrp sIxgrp 0#32) .allow,
      newEntry .everyone (grantBits (~~~mode) sIroth sIwoth sIxoth ownerBits) .deny,
      newEntry .everyone (grantBits mode sIroth sIwoth sIxoth everyoneBits) .allow] := rfl

theorem grantBits_owner (perm : BitVec 32) : (grantBits mode sIrusr sIwusr sIxusr perm).getLsbD i =
    (perm.getLsbD i || clsBits mode .owner i) := grantBits_bit mode i .owner perm rfl rfl rfl

theorem grantBits_group (perm : BitVec 32) : (grantBits mode sIrgrp sIwgrp sIxgrp perm).getLsbD i =
    (perm.getLsbD i || clsBits mode .group i) := grantBits_bit mode i .group perm rfl rfl rfl

theorem grantBits_other (perm : BitVec 32) : (grantBits mode sIroth sIwoth sIxoth perm).getLsbD i =
    (perm.getLsbD i || clsBits mode .other i) := grantBits_bit mode i .other perm rfl rfl rfl

theorem six_allows (h : Concerns who own grp) :
    allows who (adjustSix mode canonicalSix) i = modeAllows mode own grp i := by
  obtain ⟨hfixed, hboth⟩ := fixed_bits i
  have howner := clsBits_isSome mode i .owner
  have hgroup := clsBits_isSome mode i .group
  have hother := clsBits_isSome mode i .other
  rw [adjustSix_eq]
  simp only [allows_newEntry, h.owner, h.group, h.everyone, grantBits_owner, grantBits_group,
    grantBits_other, clsBits_not, true_or, or_true, BitVec.getLsbD_zero, Bool.false_or,
    Bool.true_and, modeAllows]
  rw [show allows who [] i = false from rfl]
  generalize (accessOf i).isSome = n at *
  generalize clsBits mode .owner i = u at *
  generalize clsBits mode .group i = g at *
  generalize clsBits mode .other i = o at *
  generalize ownerBits.getLsbD i = ob at *
  generalize everyoneBits.getLsbD i = eb at *
  clear h
  revert n u g o ob eb own grp
  decide

theorem allows_newEntryUnless (tag : Tag) (perm : BitVec 32) {type : EntryType}
    (acl : List AclEntry) (h : type = .allow ∨ type = .deny) :
    allows who (newEntryUnless tag perm type ++ acl) i =
      if who (newEntry tag perm type) && perm.getLsbD i then decide (type = .allow)
      else allows who acl i := by
  rw [newEntryUnless]
  split
  · exact allows_newEntry i tag perm acl h
  case isFalse hzero =>
    have hperm : perm = 0#32 := not_not.mp hzero
    simp [hperm]

/-- What is inherited is of named users and groups. -/
theorem inheritEntry_named {isDirectory : Bool} {e e' : AclEntry}
    (h : inheritEntry mode isDirectory e = some e') : e'.special = false := by
  rw [inheritEntry] at h
  split at h
  · cases h
  case isFalse hnamed =>
  have htag : e'.tag = e.tag := by
    dsimp only at h
    split at h
    · cases h
    split at h
    · cases h
    split at h
    · cases h
    split at h
    · rw [← Option.some.inj h]
    split at h <;> rw [← Option.some.inj h]
  rw [AclEntry.special, htag]
  simpa [AclEntry.special] using hnamed

theorem psarc_allows (hi : i < 32) (h : Concerns who own grp) (parent : Option (List AclEntry))
    (isDirectory : Bool) (hparent : parent ≠ none → ∀ e : AclEntry, e.special = false → who e = false) :
    allows who (computeInheritedAclPsarc parent mode isDirectory) i = modeAllows mode own grp i := by
  rw [computeInheritedAclPsarc]
  generalize hmid : (parent.elim [] fun p => p.filterMap (inheritEntry mode isDirectory)) = mid
  have hnone : ∀ acl, allows who (mid ++ acl) i = allows who acl i := by
    have hsilent : first who mid i = none := by
      cases parent with
      | none => rw [← hmid]; rfl
      | some p =>
        refine List.find?_eq_none.mpr fun e he => ?_
        rw [← hmid] at he
        obtain ⟨e', -, he'⟩ := List.mem_filterMap.mp he
        simp [hparent nofun e (inheritEntry_named mode he')]
    intro acl
    rw [allows_append, hsilent]
    rfl
  simp only [List.append_assoc, allows_newEntryUnless, hnone, allows_newEntry, h.owner, h.group,
    h.everyone, grantBits_owner, grantBits_group, grantBits_other, true_or, or_true, modeAllows,
    BitVec.getLsbD_and, BitVec.getLsbD_or, BitVec.getLsbD_not, hi, decide_true, Bool.true_and]
  rw [show allows who [] i = false from rfl]
  generalize clsBits mode .owner i = u at *
  generalize clsBits mode .group i = g at *
  generalize clsBits mode .other i = o at *
  generalize ownerBits.getLsbD i = ob at *
  generalize everyoneBits.getLsbD i = eb at *
  clear h hparent
  revert u g o ob eb own grp
  decide

end Six

section Honoured

theorem accessOf_permBit (a : Access) : accessOf (permBit a) = some a := by cases a <;> rfl

theorem modeAllows_of_access (mode : BitVec 16) (own grp : Bool) {i : Nat} {a : Access}
    (hi : accessOf i = some a) : modeAllows mode own grp i =
      mode.getLsbD (modeBit (if own then .owner else if grp then .group else .other) a) := by
  obtain ⟨ho, he⟩ := (fixed_bits i).1 (by rw [hi]; rfl)
  cases own <;> cases grp <;> simp [modeAllows, clsBits, hi, ho, he]

theorem modeAllows_cls (mode : BitVec 16) (c : Cls) (a : Access) :
    modeAllows mode (c = .owner) (c = .group) (permBit a) = mode.getLsbD (modeBit c a) := by
  rw [modeAllows_of_access mode _ _ (accessOf_permBit a)]
  cases c <;> rfl

/-- The nine bits are all of the permission bits. -/
theorem override_eq {mode mode' : BitVec 16}
    (h : ∀ c a, mode.getLsbD (modeBit c a) = mode'.getLsbD (modeBit c a)) :
    mode &&& aclOverrideMask = mode' &&& aclOverrideMask := by
  have hnine : ∀ j < 16, aclOverrideMask.getLsbD j = true → ∃ c a, j = modeBit c a := by
    have hmem : ∀ j < 9, j ∈ [modeBit .other .exec, modeBit .other .write, modeBit .other .read,
        modeBit .group .exec, modeBit .group .write, modeBit .group .read,
        modeBit .owner .exec, modeBit .owner .write, modeBit .owner .read] := by decide
    have hlt : ∀ j < 16, aclOverrideMask.getLsbD j = true → j < 9 := by decide
    intro j hj hbit
    have := hmem j (hlt j hj hbit)
    simp only [List.mem_cons, List.not_mem_nil, or_false] at this
    rcases this with h | h | h | h | h | h | h | h | h <;> exact ⟨_, _, h⟩
  refine BitVec.eq_of_getLsbD_eq fun j hj => ?_
  rw [BitVec.getLsbD_and, BitVec.getLsbD_and]
  cases hbit : aclOverrideMask.getLsbD j with
  | false => simp
  | true =>
    obtain ⟨c, a, rfl⟩ := hnine j hj hbit
    rw [h]

theorem special_of_counts {c : Cls} {e : AclEntry} (h : e.counts c = true) : e.special = true := by
  simp only [AclEntry.counts, AclEntry.special, decide_eq_true_eq] at h ⊢
  tauto

theorem draft_classGrants (acl : List AclEntry) (mode : BitVec 16) (owner : BitVec 32) (c : Cls)
    (a : Access) : classGrants c (syncAclFromModeDraft acl mode owner) (permBit a) =
      mode.getLsbD (modeBit c a) := by
  obtain ⟨pre, heq, hpre⟩ := draft_shape acl mode owner
  have hsilent : first (·.counts c) pre (permBit a) = none := by
    refine List.find?_eq_none.mpr fun e he hspeaks => ?_
    simp only [Bool.and_eq_true] at hspeaks
    have hmem : e ∈ draftWalk acl mode owner := by
      rcases hpre with ⟨h, -⟩ | h <;> rw [h]
      · exact he
      · exact List.mem_append_left _ he
    have := draftWalk_bare e hmem hspeaks.1.1 (special_of_counts hspeaks.1.2) _ a (accessOf_permBit a)
    exact nomatch this.symm.trans hspeaks.2
  rw [heq, classGrants, allows_append, hsilent]
  exact (six_allows mode _ (.cls c)).trans (modeAllows_cls mode c a)

theorem draft_bound (acl : List AclEntry) {mode : BitVec 16} {cred : Ucred}
    {fileUid : BitVec 32} (fileGid : BitVec 32) {i : Nat} {a : Access} (hi : accessOf i = some a)
    (hw : Withheld mode cred fileUid a) :
    grants cred fileUid fileGid (syncAclFromModeDraft acl mode fileUid) i = false := by
  obtain ⟨pre, heq, hpre⟩ := draft_shape acl mode fileUid
  obtain ⟨done, hdone, hquiet⟩ := draft_quiet acl fileGid hi hw
  rw [Quiet, ← hdone] at hquiet
  rw [heq, grants, allows_append]
  split
  case isTrue hsome =>
    rcases hpre with ⟨h, -⟩ | h <;> rw [h] at hquiet
    · exact hquiet
    · rwa [allows_append, if_pos hsome] at hquiet
  case isFalse =>
  rw [six_allows mode i (.credential cred fileUid fileGid), modeAllows_of_access mode _ _ hi]
  rw [Withheld] at hw
  by_cases hown : fileUid = cred.uid
  · rw [if_pos hown] at hw
    simpa [hown] using hw
  · rw [if_neg hown] at hw
    cases groupmember fileGid cred <;> simp [hown, hw]

/-- The mode can be read off again, it bounds what an ACL allows, and the two ACLs that
    only say what it says allow the same. -/
theorem mode_honoured (mode oldMode : BitVec 16) :
    (∀ acl owner, syncModeFromAcl oldMode (syncAclFromModeDraft acl mode owner) &&&
      aclOverrideMask = mode &&& aclOverrideMask) ∧
    (syncModeFromAcl oldMode (trivialFromMode mode) &&& aclOverrideMask =
      mode &&& aclOverrideMask) ∧
    (∀ parent isDirectory, syncModeFromAcl oldMode (computeInheritedAclPsarc parent mode
      isDirectory) &&& aclOverrideMask = mode &&& aclOverrideMask) ∧
    (∀ acl cred fileUid fileGid mask, aclDenies cred fileUid fileGid
        (syncAclFromModeDraft acl mode fileUid) mask = false →
      ∀ i a, mask.getLsbD i = true → accessOf i = some a →
        if fileUid = cred.uid then mode.getLsbD (modeBit .owner a) = true
        else mode.getLsbD (modeBit .group a) = true ∨ mode.getLsbD (modeBit .other a) = true) ∧
    ∀ cred fileUid fileGid owner mask, aclDenies cred fileUid fileGid (trivialFromMode mode) mask =
      aclDenies cred fileUid fileGid (syncAclFromModeDraft [] mode owner) mask := by
  have hpsarc : ∀ parent isDirectory, syncModeFromAcl oldMode (computeInheritedAclPsarc parent mode
      isDirectory) &&& aclOverrideMask = mode &&& aclOverrideMask := by
    refine fun parent isDirectory => override_eq fun c a => ?_
    rw [getLsbD_syncMode, classGrants, psarc_allows mode _ (by cases a <;> decide) (.cls c) _ _
      fun _ e he => ?_]
    · exact modeAllows_cls mode c a
    · by_contra hcounts
      cases he.symm.trans (special_of_counts (by simpa using hcounts))
  refine ⟨fun acl owner => override_eq fun c a => ?_, hpsarc none true, hpsarc, ?_, ?_⟩
  · rw [getLsbD_syncMode, draft_classGrants]
  · intro acl cred fileUid fileGid mask hmask i a hbit hi
    have hgrant : grants cred fileUid fileGid (syncAclFromModeDraft acl mode fileUid) i = true := by
      by_contra hno
      have hdenies := (aclDenies_iff _ mask).mpr ⟨i, BitVec.lt_of_getLsbD hbit, hbit, by simpa using hno⟩
      cases hmask.symm.trans hdenies
    have hw : ¬ Withheld mode cred fileUid a := fun hw =>
      Bool.false_ne_true ((draft_bound acl fileGid hi hw).symm.trans hgrant)
    rw [Withheld] at hw
    by_cases hown : fileUid = cred.uid
    · rw [if_pos hown] at hw
      rw [if_pos hown]
      simpa using hw
    rw [if_neg hown] at hw
    rw [if_neg hown]
    simpa [or_iff_not_imp_left] using hw
  intro cred fileUid fileGid owner mask
  have hsame : ∀ i < 32, grants cred fileUid fileGid (trivialFromMode mode) i =
      grants cred fileUid fileGid (syncAclFromModeDraft [] mode owner) i := by
    intro i hi
    have hsix : syncAclFromModeDraft [] mode owner = adjustSix mode canonicalSix := rfl
    rw [grants, trivialFromMode, psarc_allows mode i hi (.credential cred fileUid fileGid) none true
      (fun h => absurd rfl h), hsix, grants, six_allows mode i (.credential cred fileUid fileGid)]
  rw [Bool.eq_iff_iff, aclDenies_iff, aclDenies_iff]
  exact exists_congr fun i => and_congr_right fun hi => by rw [hsame i hi]

/-- A user with an entry of its own gets what the mode has for the group. -/
theorem mode_honoured_named : (0o640#16 : BitVec 16).getLsbD (modeBit .group .read) = true ∨
    (0o640#16 : BitVec 16).getLsbD (modeBit .other .read) = true := by
  have h := (mode_honoured 0o640#16 0#16).2.2.2.1 [⟨.user, 5#32, aclReadData, .allow, 0#16⟩]
    ⟨5#32, []⟩ 0#32 1#32 aclReadData (by decide) 3 .read (by decide) rfl
  rwa [if_neg (by decide)] at h

end Honoured

end FreeBSDKern.Acl
