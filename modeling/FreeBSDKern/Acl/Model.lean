import Mathlib

/-!
# NFSv4 Access Control Lists

What an ACL grants, and the mode that is read off it. `_acl_denies` walks the
entries with the permissions that are still asked for, and takes out of them what
an entry decides; `acl_nfs4_sync_mode_from_acl` walks them once for nine bits, each
of which is settled by the first entry that has something to say about it.

Both come down to the first entry that applies and has the permission: `grants`
looks for it with one credential in mind, `classGrants` with one class of the mode.

## Main definitions

* `aclDenies`, `aclNfs4Check`, `syncModeFromAcl`: The three functions.
* `grants`, `classGrants`: The first entry with a permission is one that allows it.
* `Represents`: A credential is in a class and has no entry of its own.

## Theorems

* `aclDenies_iff`: Permissions are decided one by one.
* `getLsbD_syncMode`: A bit of the mode is what its class is granted.
* `denies_and_mode_agree`: The two walks agree.
-/

namespace FreeBSDKern.Acl

/-- `ae_tag`, without the tags of POSIX.1e. -/
inductive Tag
  | userObj
  | user
  | groupObj
  | group
  | everyone
deriving DecidableEq

/-- `ae_entry_type`. -/
inductive EntryType
  | allow
  | deny
  | audit
  | alarm
deriving DecidableEq

@[ext]
structure AclEntry where
  tag : Tag
  id : BitVec 32
  perm : BitVec 32
  type : EntryType
  flags : BitVec 16
deriving DecidableEq

/-- A credential: its user and the groups it is a member of. -/
structure Ucred where
  uid : BitVec 32
  groups : List (BitVec 32)

def groupmember (gid : BitVec 32) (cred : Ucred) : Bool := gid ∈ cred.groups

def aclExecute : BitVec 32 := 0x0001#32
def aclReadData : BitVec 32 := 0x0008#32
def aclWriteData : BitVec 32 := 0x0010#32
def aclAppendData : BitVec 32 := 0x0020#32
def aclFullSet : BitVec 32 := 0xfff9#32

def aclEntryFileInherit : BitVec 16 := 0x01#16
def aclEntryDirectoryInherit : BitVec 16 := 0x02#16
def aclEntryNoPropagateInherit : BitVec 16 := 0x04#16
def aclEntryInheritOnly : BitVec 16 := 0x08#16
def aclEntrySuccessfulAccess : BitVec 16 := 0x10#16
def aclEntryFailedAccess : BitVec 16 := 0x20#16
def aclEntryInherited : BitVec 16 := 0x80#16
def aclFlagsBits : BitVec 16 := 0xbf#16

def aclMaxEntries : Nat := 254
def aclUndefinedId : BitVec 32 := 0xffffffff#32

/-- The test `x & m` of a condition. -/
def has {w : Nat} (x m : BitVec w) : Bool := x &&& m ≠ 0#w

/-- The entries that the walks do not skip. -/
def AclEntry.effective (e : AclEntry) : Bool :=
  (e.type = .allow ∨ e.type = .deny) ∧ ¬ has e.flags aclEntryInheritOnly

section Denies

variable (cred : Ucred) (fileUid fileGid : BitVec 32)

/-- The `switch` over the tag. -/
def AclEntry.matches (e : AclEntry) : Bool :=
  match e.tag with
  | .userObj => fileUid = cred.uid
  | .user => e.id = cred.uid
  | .groupObj => groupmember fileGid cred
  | .group => groupmember e.id cred
  | .everyone => true

/-- The result of `_acl_denies`, with what it says in `denied_explicitly`. -/
inductive Verdict
  | granted
  | denied
  | deniedExplicitly
deriving DecidableEq

def denyLoop : List AclEntry → BitVec 32 → Verdict
  | [], mask => if mask = 0#32 then .granted else .denied
  | e :: es, mask =>
    if ¬ e.effective then denyLoop es mask
    else if ¬ e.matches cred fileUid fileGid then denyLoop es mask
    else if e.type = .deny ∧ has e.perm mask then .deniedExplicitly
    else if mask &&& ~~~e.perm = 0#32 then .granted
    else denyLoop es (mask &&& ~~~e.perm)

def aclDenies (acl : List AclEntry) (mask : BitVec 32) : Bool :=
  denyLoop cred fileUid fileGid acl mask ≠ .granted

end Denies

/-- The checks of one entry. -/
def checkEntry (isDirectory : Bool) (e : AclEntry) : Bool :=
  (match e.tag with
    | .userObj | .groupObj | .everyone => e.id == aclUndefinedId
    | .user | .group => e.id != aclUndefinedId) &&
  e.perm ||| aclFullSet == aclFullSet && (e.type == .allow || e.type == .deny) &&
  e.flags ||| aclFlagsBits == aclFlagsBits &&
  !has e.flags (aclEntrySuccessfulAccess ||| aclEntryFailedAccess) &&
  (isDirectory || !has e.flags (aclEntryFileInherit ||| aclEntryDirectoryInherit |||
    aclEntryNoPropagateInherit ||| aclEntryInheritOnly))

/-- Zero or `EINVAL`. -/
def aclNfs4Check (acl : List AclEntry) (isDirectory : Bool) : Nat :=
  if acl.length > aclMaxEntries ∨ acl.length = 0 then 22
  else if acl.all (checkEntry isDirectory) then 0 else 22

section Mode

def sIrusr : BitVec 16 := 0o400#16
def sIwusr : BitVec 16 := 0o200#16
def sIxusr : BitVec 16 := 0o100#16
def sIrgrp : BitVec 16 := 0o040#16
def sIwgrp : BitVec 16 := 0o020#16
def sIxgrp : BitVec 16 := 0o010#16
def sIroth : BitVec 16 := 0o004#16
def sIwoth : BitVec 16 := 0o002#16
def sIxoth : BitVec 16 := 0o001#16
def aclOverrideMask : BitVec 16 := 0o777#16

/-- The words `mode` and `seen`. -/
structure Sync where
  mode : BitVec 16
  seen : BitVec 16

/-- One of the nine bits, unless an earlier entry settled it. -/
def Sync.see (type : EntryType) (s : Sync) (bit : BitVec 16) : Sync :=
  if has s.seen bit then s
  else ⟨if type = .allow then s.mode ||| bit else s.mode, s.seen ||| bit⟩

/-- What an entry with a permission says about these bits. -/
def Sync.seePerm (e : AclEntry) (perm : BitVec 32) (bits : List (BitVec 16)) (s : Sync) : Sync :=
  if has e.perm perm then bits.foldl (Sync.see e.type) s else s

def syncEntry (s : Sync) (e : AclEntry) : Sync :=
  if ¬ e.effective then s
  else match e.tag with
  | .userObj => ((s.seePerm e aclReadData [sIrusr]).seePerm e aclWriteData [sIwusr]).seePerm e
      aclExecute [sIxusr]
  | .groupObj => ((s.seePerm e aclReadData [sIrgrp]).seePerm e aclWriteData [sIwgrp]).seePerm e
      aclExecute [sIxgrp]
  | .everyone => ((s.seePerm e aclReadData [sIrusr, sIrgrp, sIroth]).seePerm e aclWriteData
      [sIwusr, sIwgrp, sIwoth]).seePerm e aclExecute [sIxusr, sIxgrp, sIxoth]
  | _ => s

def syncModeFromAcl (oldMode : BitVec 16) (acl : List AclEntry) : BitVec 16 :=
  (acl.foldl syncEntry ⟨0#16, 0#16⟩).mode ||| oldMode &&& ~~~aclOverrideMask

end Mode

section First

/-- The three classes of a mode. -/
inductive Cls
  | owner
  | group
  | other
deriving DecidableEq

/-- What a class may do. -/
inductive Access
  | read
  | write
  | exec
deriving DecidableEq

/-- The number of a permission's bit. -/
def permBit : Access → Nat
  | .read => 3
  | .write => 4
  | .exec => 0

/-- The number of a bit of the mode. -/
def modeBit (c : Cls) (a : Access) : Nat :=
  (match c with | .owner => 6 | .group => 3 | .other => 0) +
    match a with | .read => 2 | .write => 1 | .exec => 0

/-- The entries that count for a class. -/
def AclEntry.counts (c : Cls) (e : AclEntry) : Bool :=
  e.tag = .everyone ∨ (c = .owner ∧ e.tag = .userObj) ∨ (c = .group ∧ e.tag = .groupObj)

/-- The first effective entry with a permission, of those that concern someone. -/
def first (who : AclEntry → Bool) (acl : List AclEntry) (i : Nat) : Option AclEntry :=
  acl.find? fun e => e.effective && who e && e.perm.getLsbD i

/-- It allows the permission. -/
def allows (who : AclEntry → Bool) (acl : List AclEntry) (i : Nat) : Bool :=
  (first who acl i).any (·.type = .allow)

/-- A permission is granted to a credential. -/
def grants (cred : Ucred) (fileUid fileGid : BitVec 32) (acl : List AclEntry) (i : Nat) : Bool :=
  allows (·.matches cred fileUid fileGid) acl i

/-- A permission is granted to a class. -/
def classGrants (c : Cls) (acl : List AclEntry) (i : Nat) : Bool := allows (·.counts c) acl i

variable {who : AclEntry → Bool} {acl acl' : List AclEntry} {e : AclEntry} {i : Nat}

theorem first_append : first who (acl ++ acl') i = (first who acl i).or (first who acl' i) :=
  List.find?_append

theorem first_cons : first who (e :: acl) i =
    if e.effective && who e && e.perm.getLsbD i then some e else first who acl i := by
  rw [first, List.find?_cons]
  cases e.effective && who e && e.perm.getLsbD i <;> rfl

theorem first_congr {who' : AclEntry → Bool} (h : ∀ e ∈ acl, who e = who' e) :
    first who acl i = first who' acl i := by
  induction acl with
  | nil => rfl
  | cons e es ih =>
    rw [first_cons, first_cons, h e List.mem_cons_self,
      ih (fun e' he' => h e' (List.mem_cons_of_mem e he'))]

end First

section Bits

theorem has_twoPow {w k : Nat} (x : BitVec w) (hk : k < w) :
    has x (BitVec.twoPow w k) = x.getLsbD k := by
  rw [has, BitVec.and_twoPow]
  cases x.getLsbD k
  · simp
  have : BitVec.twoPow w k ≠ 0#w := fun h => by
    have := congrArg (·.getLsbD k) h
    simp [hk] at this
  simp [this]

theorem has_iff {w : Nat} (x m : BitVec w) :
    has x m = true ↔ ∃ i < w, x.getLsbD i = true ∧ m.getLsbD i = true := by
  rw [has, decide_eq_true_eq]
  constructor
  · intro h
    by_contra hnone
    refine h (BitVec.eq_of_getLsbD_eq fun i hi => ?_)
    rw [BitVec.getLsbD_and, BitVec.getLsbD_zero, Bool.and_eq_false_iff]
    by_contra hboth
    exact hnone ⟨i, hi, by simpa using hboth⟩
  rintro ⟨i, -, hx, hm⟩ h
  have := congrArg (·.getLsbD i) h
  simp [hx, hm] at this

end Bits

section Denies

variable {cred : Ucred} {fileUid fileGid : BitVec 32}

theorem denyLoop_iff (acl : List AclEntry) : ∀ mask : BitVec 32,
    denyLoop cred fileUid fileGid acl mask ≠ .granted ↔
      ∃ i < 32, mask.getLsbD i = true ∧ grants cred fileUid fileGid acl i = false := by
  induction acl with
  | nil =>
    intro mask
    rw [denyLoop]
    by_cases hzero : mask = 0#32
    · simp [hzero]
    rw [if_neg hzero]
    refine iff_of_true nofun ?_
    obtain ⟨i, hi, hbit, -⟩ := (has_iff mask mask).mp (by simpa [has] using hzero)
    exact ⟨i, hi, hbit, rfl⟩
  | cons e es ih =>
    intro mask
    -- An entry that does not apply changes nothing for any permission.
    have hskip : (e.effective && e.matches cred fileUid fileGid) = false →
        ∀ i, grants cred fileUid fileGid (e :: es) i = grants cred fileUid fileGid es i := by
      intro h i
      rw [grants, allows, first_cons, h]
      rfl
    rw [denyLoop]
    by_cases heff : e.effective
    · rw [if_neg (not_not.mpr heff)]
      by_cases hmatch : e.matches cred fileUid fileGid
      · have hfirst : ∀ i, grants cred fileUid fileGid (e :: es) i =
            if e.perm.getLsbD i then decide (e.type = .allow)
            else grants cred fileUid fileGid es i := by
          intro i
          rw [grants, allows, first_cons, heff, hmatch]
          cases e.perm.getLsbD i <;> rfl
        rw [if_neg (not_not.mpr hmatch)]
        by_cases hdeny : e.type = .deny ∧ has e.perm mask
        · rw [if_pos hdeny]
          obtain ⟨i, hi, hperm, hbit⟩ := (has_iff _ _).mp hdeny.2
          refine iff_of_true nofun ⟨i, hi, hbit, ?_⟩
          rw [hfirst, if_pos hperm, hdeny.1]
          rfl
        rw [if_neg hdeny]
        -- What the entry has of the mask it allows, and the rest is left to the others.
        have hallow : ∀ i < 32, mask.getLsbD i = true → e.perm.getLsbD i = true →
            e.type = .allow := by
          intro i hi hbit hperm
          have htype : e.type = .allow ∨ e.type = .deny := by
            simp only [AclEntry.effective, decide_eq_true_eq] at heff
            exact heff.1
          exact htype.resolve_right fun h =>
            hdeny ⟨h, (has_iff _ _).mpr ⟨i, hi, hperm, hbit⟩⟩
        have hrest : (∃ i < 32, mask.getLsbD i = true ∧
            grants cred fileUid fileGid (e :: es) i = false) ↔
            ∃ i < 32, (mask &&& ~~~e.perm).getLsbD i = true ∧
              grants cred fileUid fileGid es i = false := by
          refine exists_congr fun i => and_congr_right fun hi => ?_
          rw [hfirst, BitVec.getLsbD_and, BitVec.getLsbD_not]
          cases hperm : e.perm.getLsbD i
          · simp [hi]
          simp only [if_true, decide_eq_false_iff_not, Bool.not_true, Bool.and_false,
            Bool.false_eq_true, false_and, iff_false, not_and, not_not]
          exact fun hbit => hallow i hi hbit hperm
        rw [hrest]
        by_cases hzero : mask &&& ~~~e.perm = 0#32
        · rw [if_pos hzero, hzero]
          simp
        · rw [if_neg hzero, ih]
      · rw [if_pos hmatch, ih]
        simp only [hskip (by simp [hmatch])]
    · rw [if_pos heff, ih]
      simp only [hskip (by simp [heff])]

/-- Permissions are denied together exactly if one of them is denied. -/
theorem aclDenies_iff (acl : List AclEntry) (mask : BitVec 32) :
    aclDenies cred fileUid fileGid acl mask = true ↔
      ∃ i < 32, mask.getLsbD i = true ∧ grants cred fileUid fileGid acl i = false := by
  rw [aclDenies, decide_eq_true_eq, denyLoop_iff]

theorem aclDenies_twoPow (acl : List AclEntry) {i : Nat} (hi : i < 32) :
    aclDenies cred fileUid fileGid acl (BitVec.twoPow 32 i) = !grants cred fileUid fileGid acl i := by
  have hiff : aclDenies cred fileUid fileGid acl (BitVec.twoPow 32 i) = true ↔
      grants cred fileUid fileGid acl i = false := by
    rw [aclDenies_iff]
    constructor
    · rintro ⟨j, hj, hbit, hdenied⟩
      rw [BitVec.getLsbD_twoPow, Bool.and_eq_true, decide_eq_true_eq, decide_eq_true_eq] at hbit
      exact hbit.2 ▸ hdenied
    · exact fun h => ⟨i, hi, by simp [hi], h⟩
  cases hg : grants cred fileUid fileGid acl i
  · exact hiff.mpr hg
  · exact Bool.eq_false_iff.mpr fun h => nomatch hg.symm.trans (hiff.mp h)

end Denies

section Mode

theorem see_seen (type : EntryType) (s : Sync) {j k : Nat} (hk : k < 16) :
    (s.see type (BitVec.twoPow 16 k)).seen.getLsbD j = (s.seen.getLsbD j || decide (j = k)) := by
  rw [Sync.see, has_twoPow _ hk]
  by_cases hjk : j = k
  · subst hjk
    cases h : s.seen.getLsbD j <;> simp [h, hk]
  · cases s.seen.getLsbD k <;> simp [hjk, Ne.symm hjk]

theorem see_mode (type : EntryType) (s : Sync) {j k : Nat} (hk : k < 16) :
    (s.see type (BitVec.twoPow 16 k)).mode.getLsbD j =
      (s.mode.getLsbD j || (!s.seen.getLsbD j && decide (j = k ∧ type = .allow))) := by
  rw [Sync.see, has_twoPow _ hk]
  by_cases hjk : j = k
  · subst hjk
    cases h : s.seen.getLsbD j <;> by_cases htype : type = .allow <;> simp [htype, hk]
  · cases s.seen.getLsbD k <;> by_cases htype : type = .allow <;> simp [htype, hjk, Ne.symm hjk]

/-- The bits with numbers `ks`. -/
theorem seePerm_bits (s : Sync) (e : AclEntry) {p : Nat} (hp : p < 32) (j : Nat) (ks : List Nat)
    (hks : ∀ k ∈ ks, k < 16) :
    (s.seePerm e (BitVec.twoPow 32 p) (ks.map (BitVec.twoPow 16))).seen.getLsbD j =
        (s.seen.getLsbD j || (e.perm.getLsbD p && decide (j ∈ ks))) ∧
      (s.seePerm e (BitVec.twoPow 32 p) (ks.map (BitVec.twoPow 16))).mode.getLsbD j =
        (s.mode.getLsbD j || (!s.seen.getLsbD j &&
          (e.perm.getLsbD p && decide (j ∈ ks ∧ e.type = .allow)))) := by
  rw [Sync.seePerm, has_twoPow _ hp]
  cases e.perm.getLsbD p with
  | false => simp
  | true =>
    simp only [if_true, Bool.true_and]
    induction ks generalizing s with
    | nil => simp
    | cons k ks ih =>
      have hk := hks k List.mem_cons_self
      obtain ⟨hseen, hmode⟩ := ih (s.see e.type (BitVec.twoPow 16 k))
        (fun k' hk' => hks k' (List.mem_cons_of_mem k hk'))
      rw [List.map_cons, List.foldl_cons, hseen, hmode, see_seen _ _ hk, see_mode _ _ hk]
      by_cases hjk : j = k <;> by_cases hjs : j ∈ ks <;> by_cases htype : e.type = .allow <;>
        simp [hjk, hjs, htype]

/-- The three permissions one after the other, each with its own bits. -/
theorem seePerms_bits (s : Sync) (e : AclEntry) (j : Nat) (r w x : List Nat)
    (hr : ∀ k ∈ r, k < 16) (hw : ∀ k ∈ w, k < 16) (hx : ∀ k ∈ x, k < 16) (s' : Sync)
    (hs' : s' = ((s.seePerm e aclReadData (r.map (BitVec.twoPow 16))).seePerm e aclWriteData
      (w.map (BitVec.twoPow 16))).seePerm e aclExecute (x.map (BitVec.twoPow 16)))
    (speaks : Bool) (hspeaks : speaks = ((e.perm.getLsbD 3 && decide (j ∈ r)) ||
      (e.perm.getLsbD 4 && decide (j ∈ w)) || (e.perm.getLsbD 0 && decide (j ∈ x)))) :
    s'.seen.getLsbD j = (s.seen.getLsbD j || speaks) ∧ s'.mode.getLsbD j = (s.mode.getLsbD j ||
        (!s.seen.getLsbD j && (speaks && decide (e.type = .allow)))) := by
  subst hs' hspeaks
  obtain ⟨hrs, hrm⟩ := seePerm_bits s e (show 3 < 32 by decide) j r hr
  obtain ⟨hws, hwm⟩ := seePerm_bits (s.seePerm e aclReadData (r.map (BitVec.twoPow 16))) e
    (show 4 < 32 by decide) j w hw
  obtain ⟨hxs, hxm⟩ := seePerm_bits ((s.seePerm e aclReadData (r.map (BitVec.twoPow 16))).seePerm e
    aclWriteData (w.map (BitVec.twoPow 16))) e (show 0 < 32 by decide) j x hx
  rw [show aclReadData = BitVec.twoPow 32 3 from rfl, show aclWriteData = BitVec.twoPow 32 4 from rfl,
    show aclExecute = BitVec.twoPow 32 0 from rfl] at *
  have hbool : ∀ m s p p' q q' r r' t : Bool, (((m || (!s && (p && (p' && t)))) ||
      (!(s || (p && p')) && (q && (q' && t)))) || (!((s || (p && p')) || (q && q')) &&
        (r && (r' && t)))) = (m || (!s && ((p && p' || q && q' || r && r') && t))) := by decide
  rw [hxs, hxm, hws, hwm, hrs, hrm]
  exact ⟨by simp only [Bool.or_assoc], by simp only [Bool.decide_and, hbool]⟩

/-- The entry has the permission and counts for the class. -/
def AclEntry.speaks (e : AclEntry) (c : Cls) (a : Access) : Bool :=
  e.effective && e.counts c && e.perm.getLsbD (permBit a)

theorem syncEntry_bits (s : Sync) (e : AclEntry) (c : Cls) (a : Access) :
    (syncEntry s e).seen.getLsbD (modeBit c a) = (s.seen.getLsbD (modeBit c a) || e.speaks c a) ∧
      (syncEntry s e).mode.getLsbD (modeBit c a) = (s.mode.getLsbD (modeBit c a) ||
        (!s.seen.getLsbD (modeBit c a) && (e.speaks c a && decide (e.type = .allow)))) := by
  rw [syncEntry]
  by_cases heff : e.effective
  · rw [if_neg (not_not.mpr heff)]
    have hspeaks : e.speaks c a = (e.counts c && e.perm.getLsbD (permBit a)) := by
      rw [AclEntry.speaks, heff, Bool.true_and]
    cases htag : e.tag with
    | userObj =>
      refine seePerms_bits s e _ [8] [7] [6] (by decide) (by decide) (by decide) _ rfl _ ?_
      rw [hspeaks, AclEntry.counts, htag]
      cases c <;> cases a <;> simp [modeBit, permBit]
    | groupObj =>
      refine seePerms_bits s e _ [5] [4] [3] (by decide) (by decide) (by decide) _ rfl _ ?_
      rw [hspeaks, AclEntry.counts, htag]
      cases c <;> cases a <;> simp [modeBit, permBit]
    | everyone =>
      refine seePerms_bits s e _ [8, 5, 2] [7, 4, 1] [6, 3, 0] (by decide) (by decide) (by decide)
        _ rfl _ ?_
      rw [hspeaks, AclEntry.counts, htag]
      cases c <;> cases a <;> simp [modeBit, permBit]
    | user | group => simp [hspeaks, AclEntry.counts, htag]
  · simp [heff, AclEntry.speaks]

theorem syncLoop_bits (c : Cls) (a : Access) (acl : List AclEntry) : ∀ s : Sync,
    (acl.foldl syncEntry s).mode.getLsbD (modeBit c a) = (s.mode.getLsbD (modeBit c a) ||
      (!s.seen.getLsbD (modeBit c a) && classGrants c acl (permBit a))) := by
  induction acl with
  | nil => simp [classGrants, allows, first]
  | cons e es ih =>
    intro s
    obtain ⟨hseen, hmode⟩ := syncEntry_bits s e c a
    rw [List.foldl_cons, ih, hseen, hmode, classGrants, classGrants, allows, allows, first_cons,
      ← AclEntry.speaks]
    cases e.speaks c a <;> cases s.seen.getLsbD (modeBit c a) <;>
      cases s.mode.getLsbD (modeBit c a) <;> simp

theorem getLsbD_syncMode (oldMode : BitVec 16) (acl : List AclEntry) (c : Cls) (a : Access) :
    (syncModeFromAcl oldMode acl).getLsbD (modeBit c a) = classGrants c acl (permBit a) := by
  rw [syncModeFromAcl, BitVec.getLsbD_or, syncLoop_bits]
  have hold : (oldMode &&& ~~~aclOverrideMask).getLsbD (modeBit c a) = false := by
    cases c <;> cases a <;> simp [modeBit, aclOverrideMask]
  simp [hold]

end Mode

section Agree

/-- The permission that an access of the mode stands for. -/
def Access.perm : Access → BitVec 32
  | .read => aclReadData
  | .write => aclWriteData
  | .exec => aclExecute

/-- The credential is of the class, and no named entry is about it. -/
structure Represents (cred : Ucred) (fileUid fileGid : BitVec 32) (c : Cls)
    (acl : List AclEntry) : Prop where
  owner : c = .owner ↔ fileUid = cred.uid
  group : c = .group ↔ fileUid ≠ cred.uid ∧ groupmember fileGid cred = true
  apart : c = .owner → groupmember fileGid cred = false
  users : ∀ e ∈ acl, e.tag = .user → e.id ≠ cred.uid
  groups : ∀ e ∈ acl, e.tag = .group → groupmember e.id cred = false

theorem Represents.grants {cred : Ucred} {fileUid fileGid : BitVec 32} {c : Cls}
    {acl : List AclEntry} (h : Represents cred fileUid fileGid c acl) (i : Nat) :
    grants cred fileUid fileGid acl i = classGrants c acl i := by
  rw [Acl.grants, classGrants, allows, allows, first_congr fun e he => ?_]
  have howner := h.owner
  have hgroup := h.group
  have hapart := h.apart
  rw [AclEntry.matches, AclEntry.counts]
  cases htag : e.tag with
  | user => simp [h.users e he htag]
  | group => simp [h.groups e he htag]
  | everyone => simp
  | userObj | groupObj => cases c <;> simp_all

/-- `_acl_denies` denies what it denies a bit of, and allows a class of the mode what
    the mode has. -/
theorem denies_and_mode_agree (acl : List AclEntry) (fileUid fileGid : BitVec 32) (cred : Ucred) :
    (∀ mask, aclDenies cred fileUid fileGid acl mask = true ↔ ∃ i < 32, mask.getLsbD i = true ∧
      aclDenies cred fileUid fileGid acl (BitVec.twoPow 32 i) = true) ∧
    ∀ c, Represents cred fileUid fileGid c acl → ∀ oldMode a,
      ((syncModeFromAcl oldMode acl).getLsbD (modeBit c a) = true ↔
        aclDenies cred fileUid fileGid acl a.perm = false) := by
  constructor
  · intro mask
    rw [aclDenies_iff]
    refine exists_congr fun i => and_congr_right fun hi => and_congr_right fun _ => ?_
    rw [aclDenies_twoPow acl hi, Bool.not_eq_true']
  intro c h oldMode a
  have hperm : a.perm = BitVec.twoPow 32 (permBit a) := by cases a <;> rfl
  have hlt : permBit a < 32 := by cases a <;> decide
  rw [getLsbD_syncMode, hperm, aclDenies_twoPow acl hlt, h.grants, Bool.not_eq_false']

/-- An owner outside the group, behind a denial for the group. -/
theorem denies_and_mode_agree_owner :
    ((syncModeFromAcl 0#16 [⟨.groupObj, aclUndefinedId, aclReadData, .deny, 0#16⟩,
        ⟨.everyone, aclUndefinedId, aclReadData, .allow, 0#16⟩]).getLsbD (modeBit .owner .read) =
          true ↔
      aclDenies ⟨7#32, [3#32]⟩ 7#32 5#32 [⟨.groupObj, aclUndefinedId, aclReadData, .deny, 0#16⟩,
        ⟨.everyone, aclUndefinedId, aclReadData, .allow, 0#16⟩] aclReadData = false) :=
  (denies_and_mode_agree _ 7#32 5#32 ⟨7#32, [3#32]⟩).2 .owner
    ⟨by decide, by decide, by decide, by decide, by decide⟩ 0#16 .read

end Agree

end FreeBSDKern.Acl
