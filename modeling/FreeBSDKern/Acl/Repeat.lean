import FreeBSDKern.Acl.Draft

/-!
# Setting the Mode again

`ufs_setacl_nfs4` refuses an ACL of more than `(ACL_MAX_ENTRIES - 6) / 2` entries, so
that `chmod` may split every entry in two and append six. But an inherited entry that
allows something to a named user or group becomes three: its two halves, and an entry
in front of the second one. And what was put in front of an entry is recognised by
having no flags, while it gets those of the entry: where that one is marked as
inherited, another entry is put in front with every `chmod`.

An entry that gets nothing in front of it the second time stays as it is from then
on. `chmod_repeats_iff` says that those are the only two things to go wrong.

## Main definitions

* `growth`, `endsIn`: How many entries are added, from the entries before the walk.
* `Clean`: What is put in front of an entry has no flags.
* `Settled`: A list the walk leaves as it is.
* `Repeats`: The ACL can be given one mode after the other.

## Theorems

* `walkBack_length`: The length after a walk.
* `settled_walkBack`: A walk over a clean list leads to a settled one.
* `clean_of_growth`: Only a clean list stops growing.
* `chmod_repeats_iff`: When an ACL can be given modes over and over.
-/

namespace FreeBSDKern.Acl

section Growth

/-- The entry gets another one in front of it; `previous` is the one before it now. -/
def gains (previous : Option AclEntry) (e : AclEntry) : Bool :=
  e.effective && !e.special && e.type == .allow &&
    (e.splits || !previous.any fun p => meets p.plain e)

/-- How many entries a walk adds. The list has the last entry first. -/
def growth : List AclEntry → Nat
  | [] => 0
  | e :: es =>
      growth es + (if e.effective && e.splits then 1 else 0) + if gains es.head? e then 1 else 0

/-- No entry that gets one in front of it leaves it a flag. -/
def Clean : List AclEntry → Prop
  | [] => True
  | e :: es => Clean es ∧ (gains es.head? e = true → e.plain.flags = 0#16)

/-- After a walk the list begins with the entries of `six`. -/
def endsIn : List AclEntry → List AclEntry → Bool
  | [], _ => true
  | _ :: _, [] => false
  | s :: six, e :: es => e.plain.cleared = s && (six.isEmpty || !e.splits) && endsIn six es

/-- How many entries there are after a mode is set. -/
def entriesNeeded (acl : List AclEntry) : Nat :=
  acl.length + growth acl.reverse + if endsIn canonicalSix.reverse acl.reverse then 0 else 6

/-- A walk over a list with the last entry first. -/
def walkBack (mode : BitVec 16) (owner : BitVec 32) : List AclEntry → List AclEntry
  | [] => []
  | e :: es => draftEntry mode owner (walkBack mode owner es) e

variable {mode : BitVec 16} {owner : BitVec 32}

theorem draftWalk_eq (acl : List AclEntry) :
    draftWalk acl mode owner = (walkBack mode owner acl.reverse).reverse := by
  rw [draftWalk, ← acl.reverse_reverse, List.foldl_reverse, List.reverse_reverse]
  congr 1
  induction acl.reverse with
  | nil => rfl
  | cons e es ih => rw [List.foldr_cons, ih, walkBack]

theorem effective_iff (e : AclEntry) : e.effective = true ↔
    (e.type = .allow ∨ e.type = .deny) ∧ e.flags.getLsbD 3 = false := by
  rw [AclEntry.effective, show aclEntryInheritOnly = BitVec.twoPow 16 3 from rfl,
    has_twoPow _ (by decide)]
  simp

theorem plain_flags_bit (e : AclEntry) : e.plain.flags.getLsbD 3 = e.flags.getLsbD 3 := by
  rw [AclEntry.plain]
  split
  · rw [BitVec.getLsbD_and, show (~~~(aclEntryFileInherit ||| aclEntryDirectoryInherit |||
      aclEntryNoPropagateInherit)).getLsbD 3 = true from rfl, Bool.and_true]
  · rfl

@[simp] theorem effective_plain_eq (e : AclEntry) : e.plain.effective = e.effective := by
  rw [Bool.eq_iff_iff, effective_iff, effective_iff, plain_type, plain_flags_bit]

@[simp] theorem cleared_effective (e : AclEntry) : e.cleared.effective = e.effective := rfl

@[simp] theorem cleared_special (e : AclEntry) : e.cleared.special = e.special := rfl

@[simp] theorem prepended_special (e : AclEntry) : e.prepended.special = e.special := rfl

@[simp] theorem maskPair_special (mode : BitVec 16) (owner : BitVec 32) (p e : AclEntry) :
    (maskPair mode owner p e).2.special = e.special := rfl

@[simp] theorem maskPair_effective (mode : BitVec 16) (owner : BitVec 32) (p e : AclEntry) :
    (maskPair mode owner p e).2.effective = e.effective := rfl

@[simp] theorem maskPair_type (mode : BitVec 16) (owner : BitVec 32) (p e : AclEntry) :
    (maskPair mode owner p e).2.type = e.type := rfl

@[simp] theorem maskPair_splits (mode : BitVec 16) (owner : BitVec 32) (p e : AclEntry) :
    (maskPair mode owner p e).2.splits = e.splits := rfl

@[simp] theorem splits_plain (e : AclEntry) : e.plain.splits = false := by
  by_cases hsplit : e.splits
  · rw [AclEntry.plain, if_pos hsplit, AclEntry.splits, has, decide_eq_false_iff_not, not_not,
      BitVec.and_assoc]
    exact BitVec.and_zero
  · rw [AclEntry.plain, if_neg hsplit]
    simpa using hsplit

theorem plain_of_splits {e : AclEntry} (h : e.splits = false) : e.plain = e := by
  rw [AclEntry.plain, h]
  rfl

theorem meets_iff (p e : AclEntry) : meets p e = true ↔ p.type = .deny ∧ p.id = e.id ∧
    p.tag = e.tag ∧ p.flags = 0#16 ∧
      ∀ i < 32, p.perm.getLsbD i = true → e.perm.getLsbD i = true ∧ accessOf i ≠ none := by
  have hsub : ∀ m : BitVec 32, ¬ has p.perm (~~~m) = true ↔
      ∀ i < 32, p.perm.getLsbD i = true → m.getLsbD i = true := by
    intro m
    rw [has_iff]
    constructor
    · intro h i hi hp
      by_contra hm
      exact h ⟨i, hi, hp, by rw [BitVec.getLsbD_not]; simpa [hi] using hm⟩
    rintro h ⟨i, hi, hp, hm⟩
    rw [BitVec.getLsbD_not, h i hi hp] at hm
    simp at hm
  have hdata : ∀ i : Nat, dataBits.getLsbD i = true ↔ accessOf i ≠ none := by
    intro i
    rw [show dataBits = permsOf true true true from rfl, permsOf_bit]
    cases accessOf i with
    | none => simp
    | some a => cases a <;> simp
  rw [meets, decide_eq_true_eq, hsub, hsub]
  simp only [hdata]
  refine and_congr_right fun _ => and_congr_right fun _ => and_congr_right fun _ =>
    and_congr_right fun _ => ?_
  exact ⟨fun h i hi hp => ⟨h.1 i hi hp, h.2 i hi hp⟩,
    fun h => ⟨fun i hi hp => (h i hi hp).1, fun i hi hp => (h i hi hp).2⟩⟩

variable {done out es : List AclEntry} {e : AclEntry}

/-- What is at the front of the walk is recognised exactly if the entry it is made from is. -/
theorem DraftStep.front_meets (hstep : DraftStep mode owner done e out) {x : AclEntry}
    (hx : x.special = false) : (out.head?.any fun p => meets p x) = meets e.plain x := by
  have hallow : ∀ p : AclEntry, p.type ≠ .deny → meets p x = false := fun p hp =>
    Bool.eq_false_iff.mpr fun h => hp ((meets_iff p x).mp h).1
  have hclass : ∀ p : AclEntry, p.special = true → meets p x = false := by
    intro p hp
    refine Bool.eq_false_iff.mpr fun h => ?_
    rw [AclEntry.special, ((meets_iff p x).mp h).2.2.1, ← AclEntry.special, hx] at hp
    cases hp
  -- An entry that is only inherited has a flag, and the others do not deny.
  have hskip : ∀ p : AclEntry, p.effective = false → meets p x = false := by
    intro p hp
    refine Bool.eq_false_iff.mpr fun h => ?_
    rw [meets_iff] at h
    refine Bool.false_ne_true (hp.symm.trans ((effective_iff p).mpr ⟨.inr h.1, ?_⟩))
    rw [h.2.2.2.1]
    rfl
  cases hstep with
  | skip heff => exact (hskip e heff).trans (hskip e.plain (by rwa [effective_plain_eq])).symm
  | clear heff hsp =>
    exact (hclass e.plain.cleared (by simpa using hsp)).trans (hclass _ (by simpa using hsp)).symm
  | deny => rfl
  | met previous rest heff hnamed htype =>
    exact (hallow _ (by simp [maskPair, htype])).trans (hallow _ (by simp [htype])).symm
  | prepend heff hnamed htype =>
    exact (hallow _ (by simp [maskPair, htype])).trans (hallow _ (by simp [htype])).symm

theorem walkBack_step (mode : BitVec 16) (owner : BitVec 32) (e : AclEntry) (es : List AclEntry) :
    DraftStep mode owner (walkBack mode owner es) e (walkBack mode owner (e :: es)) := draftEntry_step

/-- The code's test of the entry in front is one of the list before the walk. -/
theorem walkBack_meets (mode : BitVec 16) (owner : BitVec 32) (es : List AclEntry)
    (hnamed : e.special = false) :
    ((walkBack mode owner es).head?.any fun p => meets p e) =
      es.head?.any fun p => meets p.plain e := by
  cases es with
  | nil => rfl
  | cons d ds => exact (walkBack_step ..).front_meets hnamed

/-- The entry is one that gets another one in front of it in `DraftStep`. -/
theorem gains_of_prepend (heff : e.effective = true) (hnamed : e.special = false)
    (htype : e.type = .allow) (hno : ∀ previous ∈ (walkBack mode owner es).head?,
      e.splits = false → meets previous e = false) : gains es.head? e = true := by
  rw [gains, heff, hnamed, htype, ← walkBack_meets mode owner es hnamed]
  by_cases hsplit : e.splits
  · simp [hsplit]
  have hsplit : e.splits = false := by simpa using hsplit
  cases hhead : (walkBack mode owner es).head? with
  | none => simp
  | some p => simp [hno p hhead hsplit]

theorem withCopy_length (e : AclEntry) (done : List AclEntry) :
    (withCopy e done).length = done.length + if e.splits then 1 else 0 := by
  rw [withCopy]
  split <;> rfl

theorem walkBack_length (mode : BitVec 16) (owner : BitVec 32) (es : List AclEntry) :
    (walkBack mode owner es).length = es.length + growth es := by
  induction es with
  | nil => rfl
  | cons e es ih =>
    rw [growth, List.length_cons]
    have hstep := walkBack_step mode owner e es
    revert hstep
    generalize walkBack mode owner (e :: es) = out
    rintro (heff | ⟨heff, hsp⟩ | ⟨heff, -, htype⟩ |
      ⟨previous, rest, heff, hnamed, -, hsplit, hdone, hmeets⟩ | ⟨heff, hnamed, htype, hno⟩)
    · simp [gains, heff, ih]
      omega
    · simp [gains, heff, hsp, withCopy_length, ih]
      omega
    · simp [gains, heff, htype, withCopy_length, ih]
      omega
    · have hfront := walkBack_meets mode owner es hnamed
      rw [hdone] at hfront ih
      have hany : (es.head?.any fun p => meets p.plain e) = true := hfront.symm.trans hmeets
      rw [List.length_cons] at ih
      simp [gains, heff, hsplit, hany]
      omega
    · simp [gains_of_prepend heff hnamed htype hno, heff, withCopy_length, ih]
      omega

end Growth

section Six

variable {mode : BitVec 16} {owner : BitVec 32}

/-- An entry of the six: of a class, with an effect and without flags. -/
def Plain (s : AclEntry) : Prop := s.special = true ∧ s.effective = true ∧ s.flags = 0#16

/-- An entry at the front of a walk that is one of the six comes from the last entry. -/
theorem DraftStep.front_six {done out rest : List AclEntry} {e s : AclEntry}
    (hstep : DraftStep mode owner done e out) (hs : Plain s) :
    out = s :: rest ↔ e.plain.cleared = s ∧ withCopy e done = rest := by
  rcases hs with ⟨hspecial, heffective, -⟩
  have hnamed : ∀ p : AclEntry, p.special = false → e.special = false → ∀ rest',
      (p :: rest' = s :: rest ↔ e.plain.cleared = s ∧ withCopy e done = rest) := by
    refine fun p hp he rest' => iff_of_false (fun h => ?_) fun h => ?_
    · rw [(List.cons.inj h).1] at hp
      exact nomatch hp.symm.trans hspecial
    · rw [← h.1, cleared_special, plain_special] at hspecial
      exact nomatch he.symm.trans hspecial
  cases hstep with
  | skip heff =>
    refine iff_of_false (fun h => ?_) fun h => ?_
    · rw [(List.cons.inj h).1] at heff
      exact nomatch heff.symm.trans heffective
    · rw [← h.1, cleared_effective, effective_plain_eq] at heffective
      exact nomatch heff.symm.trans heffective
  | clear heff hsp => rw [List.cons.injEq]
  | deny heff he htype => exact hnamed _ (by simpa using he) he _
  | met previous rest' heff he => exact hnamed _ (by simpa using he) he _
  | prepend heff he => exact hnamed _ (by simpa using he) he _

/-- Whether a walk ends in the six entries can be told from the entries before it. -/
theorem walkBack_endsIn (mode : BitVec 16) (owner : BitVec 32) {six : List AclEntry} (hsix : ∀ s ∈ six, Plain s) : ∀ es,
    six <+: walkBack mode owner es ↔ endsIn six es = true := by
  induction six with
  | nil => simp [endsIn]
  | cons s six ih =>
    have hs := hsix s List.mem_cons_self
    intro es
    cases es with
    | nil => simp [walkBack, endsIn]
    | cons e es =>
      have ih := ih (fun s hs => hsix s (List.mem_cons_of_mem _ hs)) es
      have hfirst : s :: six <+: walkBack mode owner (e :: es) ↔
          e.plain.cleared = s ∧ six <+: withCopy e (walkBack mode owner es) := by
        constructor
        · rintro ⟨rest, hout⟩
          have := ((walkBack_step ..).front_six hs).mp hout.symm
          exact ⟨this.1, rest, this.2.symm⟩
        · rintro ⟨he, rest, hrest⟩
          exact ⟨rest, (((walkBack_step ..).front_six hs).mpr ⟨he, hrest.symm⟩).symm⟩
      rw [hfirst, endsIn]
      by_cases hsplit : e.splits
      · cases six with
        | nil => simp [endsIn]
        | cons s' six =>
          -- The other half of the entry has a flag, which none of the six has.
          have hcopy : ¬ s' :: six <+: withCopy e (walkBack mode owner es) := by
            rw [withCopy, if_pos hsplit, List.cons_prefix_cons]
            intro h
            have heff := (hsix s' (by simp)).2.1
            rw [h.1] at heff
            cases heff.symm.trans (effective_copy e)
          simp [hsplit, hcopy]
      have hcopy : withCopy e (walkBack mode owner es) = walkBack mode owner es := if_neg hsplit
      rw [hcopy, ih]
      simp [hsplit]

theorem plain_six : ∀ s ∈ canonicalSix.reverse, Plain s := by
  unfold Plain
  decide

theorem sync_length (acl : List AclEntry) (mode : BitVec 16) (owner : BitVec 32) :
    (syncAclFromModeDraft acl mode owner).length = entriesNeeded acl := by
  obtain ⟨pre, heq, hpre⟩ := draft_shape acl mode owner
  have hends := walkBack_endsIn mode owner plain_six acl.reverse
  have hlen := walkBack_length mode owner acl.reverse
  rw [← List.length_reverse, ← draftWalk_eq, List.length_reverse] at hlen
  rw [← List.reverse_suffix, ← draftWalk_eq, List.reverse_reverse] at hends
  rw [heq, entriesNeeded, List.length_append, ← hlen]
  rcases hpre with ⟨hwalk, hno⟩ | hwalk
  · rw [if_neg (mt hends.mpr hno), hwalk]
    rfl
  · rw [if_pos (hends.mp ⟨pre, hwalk.symm⟩), hwalk, List.length_append]
    rfl

/-- Entries of the classes with no flags are walked without the others. -/
theorem walkBack_plain {six : List AclEntry} (hsix : ∀ s ∈ six, Plain s) (es : List AclEntry) :
    walkBack mode owner (six ++ es) = six.map AclEntry.cleared ++ walkBack mode owner es := by
  induction six with
  | nil => rfl
  | cons s six ih =>
    have hs := hsix s List.mem_cons_self
    have hsplit : s.splits = false := by rw [AclEntry.splits, hs.2.2]; rfl
    have hplain : s.plain.cleared = s.cleared := by rw [plain_of_splits hsplit]
    have hs' : Plain s.cleared := hs
    have hcopy : ∀ done, withCopy s done = done := fun done => if_neg (by simp [hsplit])
    rw [List.cons_append, ((walkBack_step ..).front_six hs').mpr ⟨hplain, hcopy _⟩,
      ih fun s hs => hsix s (List.mem_cons_of_mem _ hs)]
    rfl

theorem plain_adjustSix (mode : BitVec 16) : ∀ s ∈ adjustSix mode canonicalSix, Plain s := by
  rw [adjustSix_eq]
  simp [Plain, newEntry, AclEntry.special, AclEntry.effective, has]

theorem cleared_adjustSix (mode : BitVec 16) :
    (adjustSix mode canonicalSix).map AclEntry.cleared = canonicalSix := by
  have hbits : ∀ (mode r w x : BitVec 16) (perm : BitVec 32),
      perm = 0#32 ∨ perm = ownerBits ∨ perm = everyoneBits →
        grantBits mode r w x perm &&& ~~~dataBits = perm := by
    rintro mode r w x perm (rfl | rfl | rfl) <;> rw [grantBits] <;>
      cases has mode r <;> cases has mode w <;> cases has mode x <;> rfl
  rw [adjustSix_eq]
  simp only [newEntry, AclEntry.cleared, List.map_cons, List.map_nil, canonicalSix,
    hbits _ _ _ _ 0#32 (.inl rfl), hbits _ _ _ _ ownerBits (.inr (.inl rfl)),
    hbits _ _ _ _ everyoneBits (.inr (.inr rfl))]

/-- A mode is set on what a mode was set on before. -/
theorem sync_again (pre : List AclEntry) (mode' : BitVec 16) :
    syncAclFromModeDraft (pre ++ adjustSix mode' canonicalSix) mode owner =
      (walkBack mode owner pre.reverse).reverse ++ adjustSix mode canonicalSix := by
  have hwalk : draftWalk (pre ++ adjustSix mode' canonicalSix) mode owner =
      (walkBack mode owner pre.reverse).reverse ++ canonicalSix := by
    rw [draftWalk_eq, List.reverse_append, walkBack_plain fun s hs =>
      plain_adjustSix mode' s (List.mem_reverse.mp hs), List.map_reverse, cleared_adjustSix,
      List.reverse_append, List.reverse_reverse]
  obtain ⟨pre', heq, hpre⟩ := draft_shape (pre ++ adjustSix mode' canonicalSix) mode owner
  rcases hpre with ⟨-, hno⟩ | hpre
  · exact absurd ⟨_, hwalk.symm⟩ hno
  · rw [heq, List.append_cancel_right (hpre.symm.trans hwalk)]

end Six

section Pair

variable {p e : AclEntry}

/-- The two entries are a pair again, and setting the mode again changes neither. -/
theorem meets_maskPair (mode : BitVec 16) (owner : BitVec 32) (h : meets p e = true) :
    meets (maskPair mode owner p e).1 (maskPair mode owner p e).2 = true ∧
      maskPair mode owner (maskPair mode owner p e).1 (maskPair mode owner p e).2 =
        maskPair mode owner p e := by
  rw [meets_iff] at h
  rcases h with ⟨htype, hid, htag, hflags, hsub⟩
  constructor
  · refine (meets_iff _ _).mpr ⟨htype, hid, htag, hflags, fun i hi hbit => ?_⟩
    have hsub := hsub i hi
    cases ha : accessOf i with
    | none =>
      rw [(maskPair_other mode owner p e ha).2] at hbit
      exact absurd ha (hsub hbit).2
    | some a =>
      obtain ⟨he, hp⟩ := maskPair_bits mode owner p e ha
      rw [hp] at hbit
      rw [he]
      refine ⟨?_, Option.some_ne_none a⟩
      cases hei : e.perm.getLsbD i with
      | false =>
        rw [hei] at hbit hsub
        simp at hbit
        exact nomatch (hsub hbit.1).1
      | true =>
        rw [Bool.and_eq_true] at hbit
        exact hbit.2
  -- Bit by bit; the tags and the rest are those of the entries.
  have hbits : ∀ i < 32,
      (maskPair mode owner (maskPair mode owner p e).1 (maskPair mode owner p e).2).2.perm.getLsbD
          i = (maskPair mode owner p e).2.perm.getLsbD i ∧
        (maskPair mode owner (maskPair mode owner p e).1 (maskPair mode owner p e).2).1.perm.getLsbD
          i = (maskPair mode owner p e).1.perm.getLsbD i := by
    intro i hi
    cases ha : accessOf i with
    | none => exact maskPair_other mode owner _ _ ha
    | some a =>
      obtain ⟨he, hp⟩ := maskPair_bits mode owner p e ha
      obtain ⟨he', hp'⟩ := maskPair_bits mode owner (maskPair mode owner p e).1
        (maskPair mode owner p e).2 ha
      rw [he', hp', he, hp]
      have htag' : (maskPair mode owner p e).2.tag = e.tag := rfl
      have hid' : (maskPair mode owner p e).2.id = e.id := rfl
      rw [htag', hid']
      generalize (decide (e.tag = .group) && extra mode a) = g
      generalize mode.getLsbD (modeBit (if e.tag = .user ∧ e.id = owner then .owner else .group) a)
        = granted
      cases hei : e.perm.getLsbD i <;> cases hpi : p.perm.getLsbD i <;> cases g <;> simp_all
  exact Prod.ext
    (AclEntry.ext rfl rfl (BitVec.eq_of_getLsbD_eq fun i hi => (hbits i hi).2) rfl rfl)
    (AclEntry.ext rfl rfl (BitVec.eq_of_getLsbD_eq fun i hi => (hbits i hi).1) rfl rfl)

end Pair

section Settled

variable {mode : BitVec 16} {owner : BitVec 32} {es : List AclEntry}

/-- A walk leaves the list as it is. -/
def Settled (mode : BitVec 16) (owner : BitVec 32) (es : List AclEntry) : Prop :=
  walkBack mode owner es = es

theorem Settled.growth (h : Settled mode owner es) : growth es = 0 := by
  have hlen := walkBack_length mode owner es
  rw [h] at hlen
  omega

theorem clean_of_growth_zero (h : growth es = 0) : Clean es := by
  induction es with
  | nil => trivial
  | cons e es ih =>
    rw [Acl.growth] at h
    refine ⟨ih (by omega), fun hgains => ?_⟩
    rw [if_pos hgains] at h
    omega

theorem Settled.skip (h : Settled mode owner es) {e : AclEntry} (he : e.effective = false) :
    Settled mode owner (e :: es) := by
  rw [Settled, walkBack, h, draftEntry, if_pos (by simp [he])]

theorem Settled.withCopy (h : Settled mode owner es) (e : AclEntry) :
    Settled mode owner (withCopy e es) := by
  rw [Acl.withCopy]
  split
  · exact h.skip (effective_copy e)
  · exact h

theorem settled_deny {p : AclEntry} (hp : p.effective = true ∧ p.special = false ∧
    p.type = .deny ∧ p.splits = false) : Settled mode owner (p :: es) ↔ Settled mode owner es := by
  rcases hp with ⟨heff, hnamed, htype, hsplit⟩
  have hcopy : Acl.withCopy p (walkBack mode owner es) = walkBack mode owner es :=
    if_neg (by simp [hsplit])
  rw [Settled, walkBack, draftEntry, if_neg (by simp [heff]), plain_of_splits hsplit,
    if_neg (by simp [hnamed]), if_pos (by simp [htype]), hcopy, List.cons.injEq]
  exact and_iff_right rfl

theorem draftEntry_named (mode : BitVec 16) (owner : BitVec 32) {e : AclEntry} (done : List AclEntry) (heff : e.effective = true)
    (hnamed : e.special = false) (htype : e.type = .allow) (hsplit : e.splits = false) :
    draftEntry mode owner done e = draftNamed mode owner done e := by
  have hcopy : Acl.withCopy e done = done := if_neg (by simp [hsplit])
  rw [draftEntry, if_neg (not_not.mpr heff), plain_of_splits hsplit, if_neg (by simp [hnamed]),
    if_neg (not_not.mpr htype), hcopy]

/-- An entry that is found in front of another has no flags. -/
theorem front_deny {p e : AclEntry} (hmeets : meets p e = true) (hnamed : e.special = false) :
    p.effective = true ∧ p.special = false ∧ p.type = .deny ∧ p.splits = false := by
  rcases (meets_iff _ _).mp hmeets with ⟨hdeny, -, htag, hflags, -⟩
  refine ⟨?_, ?_, hdeny, ?_⟩
  · rw [effective_iff, hflags]
    exact ⟨.inr hdeny, rfl⟩
  · rw [AclEntry.special, htag]
    exact hnamed
  · rw [AclEntry.splits, hflags]
    rfl

/-- The entry that is found or made in front, and the one behind it. -/
theorem Settled.pair (h : Settled mode owner es) {p e : AclEntry} (hmeets : meets p e = true)
    (heff : e.effective = true) (hnamed : e.special = false) (htype : e.type = .allow)
    (hsplit : e.splits = false) :
    Settled mode owner ((maskPair mode owner p e).2 :: (maskPair mode owner p e).1 :: es) := by
  obtain ⟨hmeets', hagain⟩ := meets_maskPair mode owner hmeets
  have hfront : Settled mode owner ((maskPair mode owner p e).1 :: es) :=
    (settled_deny (front_deny hmeets' hnamed)).mpr h
  have hnamed' : draftEntry mode owner _ (maskPair mode owner p e).2 = _ :=
    draftEntry_named mode owner ((maskPair mode owner p e).1 :: es) heff hnamed htype hsplit
  rw [Settled, walkBack, hfront, hnamed', draftNamed, if_pos hmeets', hagain]

/-- What a walk makes of a clean list it does not change any more. -/
theorem settled_walkBack (mode : BitVec 16) (owner : BitVec 32) (hclean : Clean es) : Settled mode owner (walkBack mode owner es) := by
  induction es with
  | nil => rfl
  | cons e es ih =>
    have ih := ih hclean.1
    have hstep := walkBack_step mode owner e es
    revert hstep
    generalize walkBack mode owner (e :: es) = out
    rintro (heff | ⟨heff, hsp⟩ | ⟨heff, hnamed, htype⟩ |
      ⟨previous, rest, heff, hnamed, htype, hsplit, hdone, hmeets⟩ | ⟨heff, hnamed, htype, hno⟩)
    · exact ih.skip heff
    · have hsplit : e.plain.cleared.splits = false := splits_plain e
      have hcopy : Acl.withCopy e.plain.cleared (withCopy e (walkBack mode owner es)) =
          withCopy e (walkBack mode owner es) := if_neg (by simp [hsplit])
      have htwice : e.plain.cleared.cleared = e.plain.cleared := by
        rw [AclEntry.cleared, AclEntry.cleared, BitVec.and_assoc, BitVec.and_self]
      rw [Settled, walkBack, ih.withCopy e, draftEntry, if_neg (by simp [heff]),
        plain_of_splits hsplit, if_pos (by simpa using hsp), hcopy, htwice]
    · refine (settled_deny ⟨?_, ?_, ?_, splits_plain e⟩).mpr (ih.withCopy e) <;> simpa
    · rw [hdone] at ih
      have hrest := (settled_deny (front_deny hmeets hnamed)).mp ih
      exact hrest.pair hmeets heff hnamed htype hsplit
    have hflags := hclean.2 (gains_of_prepend heff hnamed htype hno)
    refine (ih.withCopy e).pair ((meets_iff _ _).mpr ⟨rfl, rfl, rfl, hflags, fun i _ h => ?_⟩)
      (by simpa using heff) (by simpa using hnamed) (by simpa using htype) (splits_plain e)
    simp [AclEntry.prepended] at h

theorem growth_withCopy (e : AclEntry) (done : List AclEntry) :
    growth (withCopy e done) = growth done := by
  rw [withCopy]
  split
  · simp [growth, gains, effective_copy]
  · rfl

/-- A list that stops growing was clean. -/
theorem clean_of_growth (h : growth (walkBack mode owner es) = 0) : Clean es := by
  induction es with
  | nil => trivial
  | cons e es ih =>
    have hstep := walkBack_step mode owner e es
    revert hstep h
    generalize walkBack mode owner (e :: es) = out
    intro h
    rintro (heff | ⟨heff, hsp⟩ | ⟨heff, hnamed, htype⟩ |
      ⟨previous, rest, heff, hnamed, htype, hsplit, hdone, hmeets⟩ | ⟨heff, hnamed, htype, hno⟩)
    · rw [growth] at h
      exact ⟨ih (by omega), fun hgains => by simp [gains, heff] at hgains⟩
    · rw [growth, growth_withCopy] at h
      exact ⟨ih (by omega), fun hgains => by simp [gains, hsp] at hgains⟩
    · rw [growth, growth_withCopy] at h
      exact ⟨ih (by omega), fun hgains => by simp [gains, htype] at hgains⟩
    · obtain ⟨-, -, hdeny, hpsplit⟩ := front_deny hmeets hnamed
      have hfound := walkBack_meets mode owner es hnamed
      rw [hdone] at hfound ih
      rw [growth, growth] at h
      refine ⟨ih ?_, fun hgains => ?_⟩
      · have hno : gains rest.head? previous = false := by simp [gains, hdeny]
        rw [growth, hno, hpsplit]
        simp
        omega
      · rw [gains, ← hfound] at hgains
        simp [hmeets, hsplit] at hgains
    rw [growth, growth, growth_withCopy] at h
    refine ⟨ih (by omega), fun _ => ?_⟩
    -- What was put in front is only found again if it has no flags.
    have hgains : gains (some (maskPair mode owner e.plain.prepended e.plain).1)
        (maskPair mode owner e.plain.prepended e.plain).2 = false := by
      by_contra hgains
      rw [Bool.not_eq_false] at hgains
      simp [hgains] at h
    have hfound : meets (maskPair mode owner e.plain.prepended e.plain).1.plain
        (maskPair mode owner e.plain.prepended e.plain).2 = true := by
      simpa [gains, heff, hnamed, htype] using hgains
    have hflags := ((meets_iff _ _).mp hfound).2.2.2.1
    have hplain : (maskPair mode owner e.plain.prepended e.plain).1.plain = _ :=
      plain_of_splits (splits_plain e)
    rwa [hplain] at hflags

end Settled

section Checked

variable {mode : BitVec 16} {owner : BitVec 32}

theorem or_eq_iff {w : Nat} (x m : BitVec w) :
    x ||| m = m ↔ ∀ i < w, x.getLsbD i = true → m.getLsbD i = true := by
  constructor
  · intro h i _ hx
    rw [← h, BitVec.getLsbD_or, hx, Bool.true_or]
  intro h
  refine BitVec.eq_of_getLsbD_eq fun i hi => ?_
  rw [BitVec.getLsbD_or]
  cases hx : x.getLsbD i with
  | false => rw [Bool.false_or]
  | true => rw [h i hi hx, Bool.or_true]

theorem checkEntry_iff (e : AclEntry) : checkEntry true e = true ↔
    (e.id = aclUndefinedId ↔ e.special = true) ∧
      (∀ i < 32, e.perm.getLsbD i = true → aclFullSet.getLsbD i = true) ∧
      (e.type = .allow ∨ e.type = .deny) ∧
      (∀ i < 16, e.flags.getLsbD i = true → aclFlagsBits.getLsbD i = true) ∧
      ¬ has e.flags (aclEntrySuccessfulAccess ||| aclEntryFailedAccess) = true := by
  rw [← or_eq_iff, ← or_eq_iff, checkEntry, AclEntry.special]
  cases e.tag <;> simp [and_assoc]

/-- An entry made from one that is accepted. -/
theorem checkEntry_from {e e' : AclEntry} (h : checkEntry true e = true) (htag : e'.tag = e.tag)
    (hid : e'.id = e.id) (htype : e'.type = e.type ∨ e'.type = .deny)
    (hperm : ∀ i < 32, e'.perm.getLsbD i = true →
      e.perm.getLsbD i = true ∨ (accessOf i).isSome = true)
    (hflags : ∀ i < 16, e'.flags.getLsbD i = true → e.flags.getLsbD i = true ∨ i = 3) :
    checkEntry true e' = true := by
  rw [checkEntry_iff, has_iff] at h ⊢
  refine ⟨?_, fun i hi hbit => ?_, ?_, fun i hi hbit => ?_, ?_⟩
  · rw [hid, AclEntry.special, htag]
    exact h.1
  · have hdata : ∀ i < 32, (accessOf i).isSome = true → aclFullSet.getLsbD i = true := by decide
    exact (hperm i hi hbit).elim (h.2.1 i hi) (hdata i hi)
  · exact htype.elim (fun ht => ht ▸ h.2.2.1) .inr
  · rcases hflags i hi hbit with hold | rfl
    · exact h.2.2.2.1 i hi hold
    · rfl
  rintro ⟨i, hi, hbit, hmask⟩
  rcases hflags i hi hbit with hold | rfl
  · exact h.2.2.2.2 ⟨i, hi, hold, hmask⟩
  · cases hmask

theorem checkEntry_plain {e : AclEntry} (h : checkEntry true e = true) :
    checkEntry true e.plain = true := by
  refine checkEntry_from h (by simp) (by simp) (.inl (by simp)) (fun i _ hbit => .inl ?_)
    fun i _ hbit => .inl ?_
  · rwa [plain_perm] at hbit
  rw [AclEntry.plain] at hbit
  split at hbit
  · exact (Bool.and_eq_true _ _ ▸ BitVec.getLsbD_and ▸ hbit).1
  · exact hbit

theorem checkEntry_withCopy {done : List AclEntry} {e : AclEntry} (h : checkEntry true e = true)
    (hdone : ∀ e ∈ done, checkEntry true e = true) :
    ∀ e' ∈ withCopy e done, checkEntry true e' = true := by
  rw [withCopy]
  split
  · refine List.forall_mem_cons.mpr ⟨checkEntry_from h rfl rfl (.inl rfl) (fun _ _ => .inl)
      fun i hi hbit => ?_, hdone⟩
    have hthree : ∀ i < 16, aclEntryInheritOnly.getLsbD i = true → i = 3 := by decide
    rw [BitVec.getLsbD_or, Bool.or_eq_true] at hbit
    exact hbit.imp_right (hthree i hi)
  · exact hdone

theorem checkEntry_pair (mode : BitVec 16) (owner : BitVec 32) {p e : AclEntry} (hp : checkEntry true p = true)
    (he : checkEntry true e = true) :
    checkEntry true (maskPair mode owner p e).1 = true ∧
      checkEntry true (maskPair mode owner p e).2 = true := by
  constructor
  · refine checkEntry_from hp rfl rfl (.inl rfl) (fun i _ hbit => ?_) fun _ _ => .inl
    cases ha : accessOf i with
    | none => exact .inl ((maskPair_other mode owner p e ha).2 ▸ hbit)
    | some a => exact .inr rfl
  refine checkEntry_from he rfl rfl (.inl rfl) (fun i _ hbit => ?_) fun _ _ => .inl
  cases ha : accessOf i with
  | none => exact .inl ((maskPair_other mode owner p e ha).1 ▸ hbit)
  | some a => exact .inr rfl

theorem walkBack_checked (mode : BitVec 16) (owner : BitVec 32) {es : List AclEntry} (h : ∀ e ∈ es, checkEntry true e = true) :
    ∀ e ∈ walkBack mode owner es, checkEntry true e = true := by
  induction es with
  | nil => exact h
  | cons e es ih =>
    have he := h e List.mem_cons_self
    have ih := ih fun e he => h e (List.mem_cons_of_mem _ he)
    have hplain := checkEntry_plain he
    have hcopy := checkEntry_withCopy he ih
    have hstep := walkBack_step mode owner e es
    revert hstep
    generalize walkBack mode owner (e :: es) = out
    rintro (- | - | - | ⟨previous, rest, -, -, -, -, hdone, -⟩ | -)
    · exact List.forall_mem_cons.mpr ⟨he, ih⟩
    · refine List.forall_mem_cons.mpr ⟨checkEntry_from hplain rfl rfl (.inl rfl)
        (fun i _ hbit => .inl ?_) fun _ _ => .inl, hcopy⟩
      exact (Bool.and_eq_true _ _ ▸ BitVec.getLsbD_and ▸ hbit).1
    · exact List.forall_mem_cons.mpr ⟨hplain, hcopy⟩
    · rw [hdone, List.forall_mem_cons] at ih
      obtain ⟨hp', he'⟩ := checkEntry_pair mode owner ih.1 he
      exact List.forall_mem_cons.mpr ⟨he', List.forall_mem_cons.mpr ⟨hp', ih.2⟩⟩
    have hfront : checkEntry true e.plain.prepended = true :=
      checkEntry_from hplain rfl rfl (.inr rfl) (fun i _ hbit => by simp [AclEntry.prepended] at hbit)
        fun _ _ => .inl
    obtain ⟨hp', he'⟩ := checkEntry_pair mode owner hfront hplain
    exact List.forall_mem_cons.mpr ⟨he', List.forall_mem_cons.mpr ⟨hp', hcopy⟩⟩

theorem sync_checked {acl : List AclEntry} (h : ∀ e ∈ acl, checkEntry true e = true) :
    ∀ e ∈ syncAclFromModeDraft acl mode owner, checkEntry true e = true := by
  obtain ⟨pre, heq, hpre⟩ := draft_shape acl mode owner
  have hwalk : ∀ e ∈ draftWalk acl mode owner, checkEntry true e = true := by
    rw [draftWalk_eq]
    have hback := walkBack_checked mode owner fun e he => h e (List.mem_reverse.mp he)
    exact fun e he => hback e (List.mem_reverse.mp he)
  have hsix : ∀ e ∈ adjustSix mode canonicalSix, checkEntry true e = true := by
    intro e he
    have hclear : e.cleared ∈ canonicalSix := cleared_adjustSix mode ▸ List.mem_map_of_mem he
    have hcanonical : ∀ s ∈ canonicalSix, checkEntry true s = true := by decide
    refine checkEntry_from (hcanonical _ hclear) rfl rfl (.inl rfl) (fun i hi hbit => ?_)
      fun _ _ => .inl
    rw [AclEntry.cleared, BitVec.getLsbD_and, BitVec.getLsbD_not,
      show dataBits = permsOf true true true from rfl, permsOf_bit, hbit]
    cases ha : accessOf i with
    | none => simp [hi]
    | some a => exact .inr rfl
  rw [heq]
  refine fun e he => (List.mem_append.mp he).elim (fun he => hwalk e ?_) (hsix e)
  rcases hpre with ⟨hpre, -⟩ | hpre
  · exact hpre ▸ he
  · exact hpre ▸ List.mem_append_left _ he

end Checked

section Repeat

/-- One `chmod` after the other. -/
def chmods (acl : List AclEntry) (owner : BitVec 32) (modes : List (BitVec 16)) : List AclEntry :=
  modes.foldl (fun acl mode => syncAclFromModeDraft acl mode owner) acl

/-- Modes can be set over and over: the entries fit, the same mode again changes nothing,
    and what results is accepted. -/
structure Repeats (acl : List AclEntry) (owner : BitVec 32) : Prop where
  room : ∀ modes, (chmods acl owner modes).length ≤ aclMaxEntries
  twice : ∀ modes mode,
    syncAclFromModeDraft (syncAclFromModeDraft (chmods acl owner modes) mode owner) mode owner =
      syncAclFromModeDraft (chmods acl owner modes) mode owner
  checked : ∀ modes, aclNfs4Check (chmods acl owner modes) true = 0

variable {acl : List AclEntry} {owner : BitVec 32}

/-- The result of setting a mode after which the others fit as well. -/
def Stable (acl : List AclEntry) (owner : BitVec 32) (mode : BitVec 16) : Prop :=
  ∃ pre, acl = pre ++ adjustSix mode canonicalSix ∧ Settled mode owner pre.reverse

theorem stable_first (hclean : Clean acl.reverse) (mode : BitVec 16) :
    Stable (syncAclFromModeDraft acl mode owner) owner mode := by
  obtain ⟨pre, heq, hpre⟩ := draft_shape acl mode owner
  refine ⟨pre, heq, ?_⟩
  have hsettled := settled_walkBack mode owner hclean
  rw [← List.reverse_reverse (walkBack mode owner _), ← draftWalk_eq] at hsettled
  rcases hpre with ⟨hpre, -⟩ | hpre
  · rwa [hpre] at hsettled
  · rw [hpre, List.reverse_append, Settled, walkBack_plain plain_six] at hsettled
    exact List.append_cancel_left hsettled

/-- A mode set on the result of another. -/
theorem Stable.again {mode' : BitVec 16} (h : Stable acl owner mode') (mode : BitVec 16) :
    Stable (syncAclFromModeDraft acl mode owner) owner mode ∧
      (syncAclFromModeDraft acl mode owner).length = acl.length ∧
      (mode = mode' → syncAclFromModeDraft acl mode owner = acl) := by
  rcases h with ⟨pre, rfl, hsettled⟩
  rw [sync_again]
  have hgrowth := hsettled.growth
  refine ⟨⟨_, rfl, ?_⟩, ?_, ?_⟩
  · rw [List.reverse_reverse]
    exact settled_walkBack mode owner (clean_of_growth_zero hgrowth)
  · rw [List.length_append, List.length_append, List.length_reverse, walkBack_length, hgrowth,
      List.length_reverse, Nat.add_zero]
    rfl
  · rintro rfl
    rw [hsettled, List.reverse_reverse]

theorem stable_chmods (owner : BitVec 32) (hclean : Clean acl.reverse) (mode : BitVec 16) (modes : List (BitVec 16)) :
    ∃ mode', Stable (chmods acl owner (mode :: modes)) owner mode' ∧
      (chmods acl owner (mode :: modes)).length = entriesNeeded acl := by
  have hrun : ∀ (modes : List (BitVec 16)) (acl : List AclEntry) (mode : BitVec 16),
      Stable acl owner mode → ∃ mode', Stable (chmods acl owner modes) owner mode' ∧
        (chmods acl owner modes).length = acl.length := by
    intro modes
    induction modes with
    | nil => exact fun acl mode h => ⟨mode, h, rfl⟩
    | cons m modes ih =>
      intro acl mode h
      obtain ⟨hnext, hlen, -⟩ := h.again m
      obtain ⟨mode', hlast, hlen'⟩ := ih _ m hnext
      exact ⟨mode', hlast, hlen'.trans hlen⟩
  obtain ⟨mode', hlast, hlen⟩ := hrun modes _ mode (stable_first hclean mode)
  exact ⟨mode', hlast, hlen.trans (sync_length acl mode owner)⟩

/-- Modes can be set over and over on an ACL exactly if the first one fits and what is
    put in front of an entry has no flags. -/
theorem chmod_repeats_iff (acl : List AclEntry) (owner : BitVec 32)
    (hcheck : aclNfs4Check acl true = 0) :
    Repeats acl owner ↔ entriesNeeded acl ≤ aclMaxEntries ∧ Clean acl.reverse := by
  have hacl : (0 < acl.length ∧ acl.length ≤ aclMaxEntries) ∧ ∀ e ∈ acl, checkEntry true e = true := by
    rw [aclNfs4Check] at hcheck
    split at hcheck
    · cases hcheck
    case isFalse hlen =>
    rw [ite_eq_left_iff] at hcheck
    refine ⟨by omega, List.all_eq_true.mp ?_⟩
    by_contra hall
    exact nomatch hcheck hall
  constructor
  · intro h
    refine ⟨sync_length acl 0#16 owner ▸ h.room [0#16], ?_⟩
    -- What the second of two walks leaves as it is has stopped growing.
    obtain ⟨pre, heq, hpre⟩ := draft_shape acl 0#16 owner
    have htwice : syncAclFromModeDraft (syncAclFromModeDraft acl 0#16 owner) 0#16 owner =
        syncAclFromModeDraft acl 0#16 owner := h.twice [] 0#16
    rw [heq, sync_again] at htwice
    have hsettled : Settled 0#16 owner pre.reverse :=
      (List.reverse_eq_iff.mp (List.append_cancel_right htwice))
    refine clean_of_growth ((?_ : Settled 0#16 owner (walkBack 0#16 owner acl.reverse)).growth)
    rw [← List.reverse_reverse (walkBack _ _ _), ← draftWalk_eq]
    rcases hpre with ⟨hpre, -⟩ | hpre
    · rwa [hpre]
    · rw [hpre, List.reverse_append, Settled, walkBack_plain plain_six, hsettled]
      rfl
  rintro ⟨hroom, hclean⟩
  have hlen : ∀ modes, 0 < (chmods acl owner modes).length ∧
      (chmods acl owner modes).length ≤ aclMaxEntries := by
    intro modes
    cases modes with
    | nil => exact hacl.1
    | cons mode modes =>
      obtain ⟨mode', ⟨pre, heq, -⟩, hlen⟩ := stable_chmods owner hclean mode modes
      refine ⟨?_, hlen ▸ hroom⟩
      rw [heq, List.length_append]
      exact Nat.lt_add_left _ (show 0 < 6 by decide)
  have hall : ∀ modes, ∀ e ∈ chmods acl owner modes, checkEntry true e = true := by
    intro modes
    induction modes using List.reverseRecOn with
    | nil => exact hacl.2
    | append_singleton modes mode ih =>
      rw [chmods, List.foldl_append]
      exact sync_checked ih
  refine ⟨fun modes => (hlen modes).2, fun modes mode => ?_, fun modes => ?_⟩
  · have hstable : Stable (syncAclFromModeDraft (chmods acl owner modes) mode owner) owner mode := by
      cases modes with
      | nil => exact stable_first hclean mode
      | cons m modes =>
        obtain ⟨mode', h, -⟩ := stable_chmods owner hclean m modes
        exact (h.again mode).1
    exact (hstable.again mode).2.2 rfl
  rw [aclNfs4Check, if_neg, if_pos (List.all_eq_true.mpr (hall modes))]
  have := hlen modes
  omega

/-- A user with an entry of its own that is not inherited. -/
theorem chmod_repeats_named :
    Repeats [⟨.user, 5#32, aclReadData, .allow, 0#16⟩] 0#32 :=
  (chmod_repeats_iff _ _ (by decide)).mpr ⟨by decide, trivial, fun _ => rfl⟩

/-- With one that is marked as inherited every `chmod` adds another entry. -/
theorem inherited_grows :
    aclNfs4Check [⟨.user, 5#32, aclReadData, .allow, aclEntryInherited⟩] true = 0 ∧
      1 ≤ (aclMaxEntries - 6) / 2 ∧
      ¬ Repeats [⟨.user, 5#32, aclReadData, .allow, aclEntryInherited⟩] 0#32 := by
  refine ⟨by decide, by decide, fun h => ?_⟩
  have hlength := congrArg List.length (h.twice [] 0#16)
  revert hlength
  decide

end Repeat

end FreeBSDKern.Acl
