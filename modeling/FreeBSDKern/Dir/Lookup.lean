import FreeBSDKern.Dir.Build

/-!
# Looking a Name Up in the Hash

The search along the chain of a name finds what the linear scan of the directory finds.
The shortcut for sequential access does not change this: it starts the search at the slot
of the entry behind the last one looked up, and if that is not the one, the search starts
again from the home of the name.

## Main definitions

* `IsPrev`: The record before another one in its block.

## Theorems

* `scan_eq_some`: What the linear scan finds.
* `chase_hash`: What the search from the home of a name finds.
* `lookup_ok`: What is found with any sequential offset.
-/

namespace FreeBSDKern.Dir

open Lib

variable {D : Directory} {dh : Dirhash}

theorem scan_eq_some (hD : D.Ok) {n : Name} {o : Nat} : D.scan n = some o ↔ D.live o = some n := by
  constructor
  · intro hscan
    have hfound := List.find?_some hscan
    have hpred := of_decide_eq_true hfound
    exact hD.live_iff.mpr ⟨List.mem_of_find?_eq_some hscan, hpred.1, hpred.2⟩
  intro hlive
  cases hscan : D.scan n with
  | none =>
    rcases hD.live_iff.mp hlive with ⟨hmem, hino, hname⟩
    exact absurd (decide_eq_true ⟨hino, hname⟩) (List.find?_eq_none.mp hscan o hmem)
  | some o' =>
    have hfound := List.find?_some hscan
    have hpred := of_decide_eq_true hfound
    have hlive' := hD.live_iff.mpr ⟨List.mem_of_find?_eq_some hscan, hpred.1, hpred.2⟩
    rw [hD.names hlive' hlive]

/-- What an offset in the table stands for. -/
theorem live_of_used (h : Hashed D.listing dh) {slot o : Nat} (hslot : slot < dh.dhHlen)
    (hused : dh.dhHash slot = .used o) : ∃ n, D.live o = some n := by
  have hne := h.holds.sound hslot hused
  cases hlive : D.live o with
  | none => exact absurd (homes_none hlive) hne
  | some n => exact ⟨n, rfl⟩

/-- The names that the search compares are those of the records. -/
theorem name_match (hfmt : D.ofsfmt = false) {o : Nat} {n : Name} :
    (D.dNamlen o = n.length ∧ D.dName o n.length = n) ↔ D.name o = n := by
  have hname : D.name o = D.dName o (D.dNamlen o) := by
    simp only [Directory.name, Directory.namlen, hfmt, Bool.false_eq_true, if_false]
  constructor
  · rintro ⟨hlen, heq⟩
    rw [hname, hlen, heq]
  intro heq
  have hlen : D.dNamlen o = n.length := by
    rw [← heq, hname, Directory.dName_length]
  refine ⟨hlen, ?_⟩
  rw [← hlen, ← hname, heq]

/-- Where the search along a chain stops. -/
def stopsAt (D : Directory) (n : Name) : Slot Nat → Bool
  | .empty => true
  | .del => false
  | .used o => D.name o = n

/-- The search passes the slots at which it does not stop. -/
theorem chase_ahead (hD : D.Ok) (hfmt : D.ofsfmt = false) (h : Hashed D.listing dh) {n : Name} :
    ∀ (e i fuel : Nat), i < dh.dhHlen → e < fuel →
      (∀ k < e, stopsAt D n (dh.dhHash ((i + k) % dh.dhHlen)) = false) →
      stopsAt D n (dh.dhHash ((i + e) % dh.dhHlen)) = true →
      (dh.dhHash ((i + e) % dh.dhHlen) = .empty ∧ chase D dh n false fuel i = some .nothing) ∨
      ∃ o, dh.dhHash ((i + e) % dh.dhHlen) = .used o ∧ D.live o = some n ∧
        chase D dh n false fuel i = some (.hit o) := by
  intro e
  induction e with
  | zero =>
    intro i fuel hi hfuel _ hstop
    rw [Nat.add_zero, Nat.mod_eq_of_lt hi] at hstop ⊢
    cases fuel with
    | zero => omega
    | succ fuel =>
      rw [chase]
      cases hslot : dh.dhHash i with
      | empty => exact .inl ⟨rfl, rfl⟩
      | del =>
        rw [hslot] at hstop
        exact absurd hstop Bool.false_ne_true
      | used o =>
        rw [hslot] at hstop
        have hname : D.name o = n := of_decide_eq_true hstop
        rcases live_of_used h hi hslot with ⟨n', hlive⟩
        rcases hD.live_iff.mp hlive with ⟨hmem, -, hname'⟩
        rcases hD.record hmem with ⟨hlt, hpos, hle, -, -⟩
        refine .inr ⟨o, rfl, by rw [hlive, ← hname', hname], ?_⟩
        dsimp only
        rw [if_neg (by omega), if_neg (by omega), if_pos ((name_match hfmt).mpr hname)]
  | succ e ih =>
    intro i fuel hi hfuel hbefore hstop
    have hshift : ∀ k, (wrapIncr i dh.dhHlen + k) % dh.dhHlen = (i + (k + 1)) % dh.dhHlen := by
      intro k
      rw [wrapIncr_eq hi, Nat.mod_add_mod]
      congr 1
      omega
    have hi' : wrapIncr i dh.dhHlen < dh.dhHlen := by
      rw [wrapIncr_eq hi]
      exact Nat.mod_lt _ (by omega)
    cases fuel with
    | zero => omega
    | succ fuel =>
      have hrest := ih (wrapIncr i dh.dhHlen) fuel hi' (by omega)
        (fun k hk => by rw [hshift]; exact hbefore (k + 1) (by omega)) (by rw [hshift]; exact hstop)
      rw [hshift] at hrest
      have hfirst := hbefore 0 (by omega)
      rw [Nat.add_zero, Nat.mod_eq_of_lt hi] at hfirst
      rw [chase]
      cases hslot : dh.dhHash i with
      | empty =>
        rw [hslot] at hfirst
        exact absurd hfirst.symm Bool.false_ne_true
      | del => exact hrest
      | used o =>
        rw [hslot] at hfirst
        have hname : D.name o ≠ n := of_decide_eq_false hfirst
        rcases live_of_used h hi hslot with ⟨n', hlive⟩
        rcases hD.record (hD.live_iff.mp hlive).1 with ⟨hlt, hpos, hle, -, -⟩
        dsimp only
        rw [if_neg (by omega), if_neg (by omega),
          if_neg (fun hm => hname ((name_match hfmt).mp hm)), if_neg Bool.false_ne_true]
        exact hrest

/-- The search from the home of a name finds what the linear scan finds. -/
theorem chase_hash (hD : D.Ok) (hfmt : D.ofsfmt = false) (h : Hashed D.listing dh) (n : Name) :
    chase D dh n false dh.dhHlen (dh.hash n) = some (match D.scan n with
      | none => .nothing
      | some o => .hit o) := by
  rcases exists_empty (by rw [← h.hused]; exact h.room) with ⟨j, hj, hempty⟩
  rcases seek_spec (t := dh.dhHash) (stopsAt D n) (hash_lt h.room n) hj (by rw [hempty]; rfl) with
    ⟨e, he, -, hat, hbefore⟩
  rcases chase_ahead hD hfmt h e _ _ (hash_lt h.room n) he hbefore hat with
    ⟨hend, hchase⟩ | ⟨o, -, hlive, hchase⟩
  · -- An entry with the name would have been met before the end of the chain.
    have hnone : D.scan n = none := by
      cases hscan : D.scan n with
      | none => rfl
      | some o =>
        have hlive := (scan_eq_some hD).mp hscan
        have hhome : homes dh D.listing.live o = some (dh.hash n) := homes_some hlive
        rcases h.holds.found hhome with ⟨-, i, hi, hused, d, hd, hdi, hpath⟩
        have hstop : stopsAt D n (dh.dhHash ((dh.hash n + d) % dh.dhHlen)) = true := by
          rw [hdi, hused]
          exact decide_eq_true (live_eq_some.mp hlive).2.2.2
        rcases Nat.lt_trichotomy e d with hlt | rfl | hgt
        · exact absurd hend (hpath e hlt)
        · rw [hdi, hused] at hend
          cases hend
        · rw [hbefore d hgt] at hstop
          exact absurd hstop Bool.false_ne_true
    rw [hchase, hnone]
  · rw [hchase, (scan_eq_some hD).mpr hlive]

/-! ## The record before -/

/-- The record before another one in its block, or the record itself if it is the first. -/
def IsPrev (D : Directory) (o p : Nat) : Prop :=
  if o % dirblksiz = 0 then p = o
  else p ∈ D.records (o / dirblksiz) ∧ p + D.dReclen p = o

/-- The walk to a record from one before it. -/
theorem getprevLoop_ok {blkoff entrypos e : Nat} : ∀ (os : List Nat) (i prevoff fuel : Nat),
    Tiles D (blkoff + i) os e → blkoff + entrypos ∈ os → entrypos - i < fuel →
      ∃ p, getprevLoop D blkoff entrypos fuel i prevoff = some p ∧
        ((i = entrypos ∧ p = prevoff) ∨ (p ∈ os ∧ p + D.dReclen p = blkoff + entrypos)) := by
  intro os
  induction os with
  | nil =>
    intro i prevoff fuel _ hmem
    exact absurd hmem List.not_mem_nil
  | cons o os ih =>
    intro i prevoff fuel htile hmem hfuel
    have hpos := htile.pos List.mem_cons_self
    rcases htile with ⟨rfl, -, -, hrest⟩
    cases fuel with
    | zero => omega
    | succ fuel =>
      rw [getprevLoop]
      rcases List.mem_cons.mp hmem with heq | hmem
      · have hi : i = entrypos := by omega
        exact ⟨prevoff, by rw [if_neg (by omega)], .inl ⟨hi, rfl⟩⟩
      have hle := (hrest.mem hmem).1
      have hrest' : Tiles D (blkoff + (i + D.dReclen (blkoff + i))) os e := by
        rwa [← Nat.add_assoc]
      rw [if_pos (by omega), if_neg (by omega)]
      rcases ih _ (blkoff + i) fuel hrest' hmem (by omega) with ⟨p, hloop, hp⟩
      refine ⟨p, hloop, .inr ?_⟩
      rcases hp with ⟨heq, rfl⟩ | ⟨hin, hp⟩
      · exact ⟨List.mem_cons_self, by omega⟩
      · exact ⟨List.mem_cons_of_mem _ hin, hp⟩

theorem getprev_ok (hD : D.Ok) {o : Nat} (ho : o ∈ D.allRecords) (hmod : o % dirblksiz ≠ 0) :
    ∃ p, getprev D o = some p ∧ IsPrev D o p := by
  rcases hD.mem_all.mp ho with ⟨hlt, hmem⟩
  have hb : o / dirblksiz < D.nblocks := by
    rw [hD.size_eq] at hlt
    exact Nat.div_lt_of_lt_mul hlt
  have hdiv := Nat.div_add_mod o dirblksiz
  have hsmall := Nat.mod_lt o (show 0 < dirblksiz by decide)
  have hblk : o - o % dirblksiz = dirblksiz * (o / dirblksiz) := by omega
  have htile := hD.tiles _ hb
  rw [← hblk, ← Nat.add_zero (o - o % dirblksiz)] at htile
  have hself : o - o % dirblksiz + o % dirblksiz ∈ D.records (o / dirblksiz) := by
    rw [Nat.sub_add_cancel (Nat.mod_le _ _)]
    exact hmem
  rcases getprevLoop_ok _ 0 (o - o % dirblksiz) (dirblksiz + 1) htile hself (by omega) with
    ⟨p, hloop, hp⟩
  refine ⟨p, ?_, ?_⟩
  · rw [getprev, if_neg hmod, hloop]
  rw [IsPrev, if_neg hmod]
  rcases hp with ⟨hzero, -⟩ | ⟨hin, hp⟩
  · omega
  · exact ⟨hin, by omega⟩

/-! ## The search -/

/-- What the walks along the chain find, with any sequential offset. -/
theorem chases_ok (hD : D.Ok) (hfmt : D.ofsfmt = false) (h : Hashed D.listing dh) (n : Name) :
    chases D dh n = some (match D.scan n with
      | none => .nothing
      | some o => .hit o) := by
  have hnormal := chase_hash hD hfmt h n
  unfold chases seqslot
  cases hseq : dh.dhSeqoff with
  | none => exact hnormal
  | some q =>
    dsimp only
    rcases exists_empty (by rw [← h.hused]; exact h.room) with ⟨j, hj, hempty⟩
    rcases seek_spec (t := dh.dhHash) (fun v => v = .used q ∨ v = .empty) (hash_lt h.room n) hj
      (decide_eq_true (.inr hempty)) with ⟨e, -, hseek, -, -⟩
    have hi : (dh.hash n + e) % dh.dhHlen < dh.dhHlen :=
      Nat.mod_lt _ (lt_of_le_of_lt zero_le h.room)
    rw [hseek]
    generalize (dh.hash n + e) % dh.dhHlen = i at hi
    simp only [Option.map_some]
    split
    case h_1 hslot => cases hslot
    case h_2 => exact hnormal
    case h_3 slot hslot =>
    split at hslot
    case isFalse =>
      cases hslot
    case isTrue hused =>
    simp only [Option.some.injEq] at hslot
    rw [← hslot]
    -- The slot holds an entry of the directory. It is the right one, or not.
    rcases live_of_used h hi hused with ⟨n', hlive⟩
    rcases hD.live_iff.mp hlive with ⟨hmem, -, hname'⟩
    rcases hD.record hmem with ⟨hlt, hpos, hle, -, -⟩
    have hchase : chase D dh n true dh.dhHlen i =
        some (if D.name q = n then .hit q else .mismatch) := by
      cases hlen : dh.dhHlen with
      | zero => omega
      | succ k =>
        rw [chase, hused]
        dsimp only
        rw [if_neg (by omega), if_neg (by omega)]
        by_cases hname : D.name q = n
        · rw [if_pos ((name_match hfmt).mpr hname), if_pos hname]
        · rw [if_neg (fun hm => hname ((name_match hfmt).mp hm)), if_neg hname, if_pos rfl]
    rw [hchase]
    by_cases hname : D.name q = n
    · have hlive' : D.live q = some n := by rw [hlive, ← hname', hname]
      rw [if_pos hname, (scan_eq_some hD).mpr hlive']
    · rw [if_neg hname]
      exact hnormal

/-- The search in the hash finds what the linear scan finds, and where a record before it
    is asked for, that too. It moves nothing but the sequential offset. -/
theorem lookup_ok (hD : D.Ok) (hfmt : D.ofsfmt = false) (h : Hashed D.listing dh) (n : Name)
    (prev : Bool) :
    ∃ seqoff found, lookup D dh n prev = some ({ dh with dhSeqoff := seqoff }, found) ∧
      match D.scan n with
      | none => found = .enoent
      | some o => ∃ p, IsPrev D o p ∧ found = .entry o (if prev then some p else none) := by
  rw [lookup, chases_ok hD hfmt h n]
  cases hscan : D.scan n with
  | none => exact ⟨dh.dhSeqoff, .enoent, rfl, rfl⟩
  | some o =>
    have hlive := (scan_eq_some hD).mp hscan
    have hmem := (hD.live_iff.mp hlive).1
    dsimp only
    by_cases hmod : o % dirblksiz = 0
    · have hprev : IsPrev D o o := by
        rw [IsPrev, if_pos hmod]
      cases prev with
      | false => exact ⟨_, _, rfl, o, hprev, rfl⟩
      | true =>
        rw [if_neg (by decide), if_pos hmod]
        exact ⟨_, _, rfl, o, hprev, rfl⟩
    rcases getprev_ok hD hmem hmod with ⟨p, hget, hprev⟩
    cases prev with
    | false => exact ⟨_, _, rfl, p, hprev, rfl⟩
    | true =>
      rw [if_neg (by decide), if_neg hmod, hget]
      exact ⟨_, _, rfl, p, hprev, rfl⟩

end FreeBSDKern.Dir
