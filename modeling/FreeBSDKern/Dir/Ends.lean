import FreeBSDKern.Dir.Mirror
import FreeBSDKern.Dir.Passes

/-!
# Directories on Which the Hash Is Never Built

`ufsdirhash_build` makes room for half more entries than a directory of its size can have,
if each takes at least 12 bytes. The loop that fills the table takes any record with a
length that is not zero and does not go over the end of its 512 bytes, and looks for an
empty slot for each. In a directory that is not well formed there can be an entry every
two bytes. The table is full then before the directory ends, and the loop that looks for
an empty slot goes around it for ever.

A loop that does not end is one that does not end within any number of turns.

## Main definitions

* `fillLoop`, `fill`: The loop of `ufsdirhash_build`, with the one inside it.
* `entries`: The entries it comes to.

## Theorems

* `fill_ends_iff`: The table is filled exactly if it has a slot for every entry.
* `Directory.Ok.entries_lt`: In a well formed directory it has.
* `cachedSearch_iff`: The search and the building of the hash.
* `twos_endless`: A directory on which the building does not end.
-/

namespace FreeBSDKern.Dir

open Lib

/-- The block at `pos` has to be read, and cannot be. -/
def unreadable (env : SearchEnv) (pos : Nat) : Prop :=
  pos % env.iosize = 0 ∧ (env.blkatoff pos).isSome

instance (env : SearchEnv) (pos : Nat) : Decidable (unreadable env pos) :=
  inferInstanceAs (Decidable (_ ∧ _))

/-- The test for a corrupted directory. -/
def corrupted (D : Directory) (pos : Nat) : Prop :=
  D.dReclen pos = 0 ∨ D.dReclen pos > dirblksiz - pos % dirblksiz

instance (D : Directory) (pos : Nat) : Decidable (corrupted D pos) :=
  inferInstanceAs (Decidable (_ ∨ _))

/-- The entries from `pos` on are put into the hash. The result is `some none` where the
    source gives up, and `none` where this loop or the one for an empty slot has not ended
    within `fuel` turns. -/
def fillLoop (D : Directory) (env : SearchEnv) : Nat → Nat → Dirhash → Option (Option Dirhash)
  | 0, _, _ => none
  | fuel + 1, pos, dh =>
    if pos < D.iSize then
      if unreadable env pos then some none
      else if corrupted D pos then some none
      else if D.dIno pos ≠ 0 then
        match seek (fun v => v = .empty) dh.dhHlen dh.dhHash fuel
            (dh.hash (D.dName pos (D.dNamlen pos))) with
        | none => none
        | some slot => fillLoop D env fuel (pos + D.dReclen pos)
            (adjfree (putslot dh slot pos) pos (-directsiz (D.dNamlen pos)))
      else fillLoop D env fuel (pos + D.dReclen pos) dh
    else some (some dh)

def fill (D : Directory) (env : SearchEnv) (self : UInt64) (fuel : Nat) : Option (Option Dirhash) :=
  fillLoop D env fuel 0 (emptyHash D self)

/-- The entries from `pos` on that the loop comes to, in `n` records. -/
def entriesFrom (D : Directory) (env : SearchEnv) : Nat → Nat → Nat
  | 0, _ => 0
  | n + 1, pos =>
    if pos < D.iSize ∧ ¬unreadable env pos ∧ ¬corrupted D pos then
      (if D.dIno pos ≠ 0 then 1 else 0) + entriesFrom D env n (pos + D.dReclen pos)
    else 0

def entries (D : Directory) (env : SearchEnv) : Nat := entriesFrom D env D.iSize 0

/-! ## Searching for an empty slot -/

section Probe

variable {α : Type} {n : Nat} {t : Nat → Slot α}

theorem wrapIncr_lt {i : Nat} (h : i < n) : wrapIncr i n < n := by
  unfold wrapIncr
  split <;> omega

-- What a search ends with is a slot of the table at which it stops.
theorem seek_stops (stop : Slot α → Bool) : ∀ (fuel i s : Nat), i < n →
    seek stop n t fuel i = some s → s < n ∧ stop (t s) = true := by
  intro fuel
  induction fuel with
  | zero => exact fun i s _ h => absurd h nofun
  | succ fuel ih =>
    intro i s hi h
    rw [seek] at h
    split at h
    case isTrue hstop =>
      rw [Option.some.injEq] at h
      subst h
      exact ⟨hi, hstop⟩
    case isFalse => exact ih _ s (wrapIncr_lt hi) h

end Probe

/-! ## Filling the table -/

variable {D : Directory} {env : SearchEnv}

theorem occupied_putslot {dh : Dirhash} {slot : Nat} (hslot : slot < dh.dhHlen)
    (hempty : dh.dhHash slot = .empty) (pos : Nat) (diff : Int) :
    occupied dh.dhHlen (adjfree (putslot dh slot pos) pos diff).dhHash =
        occupied dh.dhHlen dh.dhHash + 1 ∧
      (adjfree (putslot dh slot pos) pos diff).dhHlen = dh.dhHlen := by
  rw [adjfree_dhHash, adjfree_dhHlen]
  have hup := occupied_update (t := dh.dhHash) (.used pos) hslot
  rw [hempty] at hup
  simp only [Slot.weight, Nat.add_zero] at hup
  exact ⟨hup, rfl⟩

theorem hash_lt_hlen {dh : Dirhash} (hpos : 0 < dh.dhHlen) (name : Name) :
    dh.hash name < dh.dhHlen := Nat.mod_lt _ hpos

/-- While there is a slot for every entry that is left, the loop ends. -/
theorem fillLoop_ends : ∀ (n pos fuel : Nat) (dh : Dirhash), D.iSize - pos ≤ n → 0 < dh.dhHlen →
    occupied dh.dhHlen dh.dhHash + entriesFrom D env n pos ≤ dh.dhHlen → n + dh.dhHlen < fuel →
    ∃ r, fillLoop D env fuel pos dh = some r := by
  intro n
  induction n with
  | zero =>
    intro pos fuel dh hn _ _ hfuel
    obtain ⟨fuel, rfl⟩ : ∃ m, fuel = m + 1 := ⟨fuel - 1, by omega⟩
    exact ⟨some dh, by rw [fillLoop, if_neg (by omega)]⟩
  | succ n ih =>
    intro pos fuel dh hn hpos hroom hfuel
    obtain ⟨fuel, rfl⟩ : ∃ m, fuel = m + 1 := ⟨fuel - 1, by omega⟩
    rw [fillLoop]
    by_cases hlt : pos < D.iSize
    · rw [if_pos hlt]
      by_cases hread : unreadable env pos
      · exact ⟨none, if_pos hread⟩
      rw [if_neg hread]
      by_cases hbad : corrupted D pos
      · exact ⟨none, if_pos hbad⟩
      rw [if_neg hbad]
      rw [entriesFrom, if_pos ⟨hlt, hread, hbad⟩] at hroom
      unfold corrupted at hbad
      by_cases hino : D.dIno pos ≠ 0
      · rw [if_pos hino] at hroom ⊢
        -- There is an empty slot, and it is found within one round.
        obtain ⟨j, hj, hempty⟩ := exists_empty (n := dh.dhHlen) (t := dh.dhHash) (by omega)
        have hi := hash_lt_hlen hpos (D.dName pos (D.dNamlen pos))
        obtain ⟨d, hd, hdj⟩ := Lib.exists_ahead hi hj
        have hround : d < fuel := by omega
        obtain ⟨e, -, hseek, hstop, -⟩ := seek_of_ahead (t := dh.dhHash)
          (fun v => v = .empty) hpos hi hround (by rw [hdj]; exact decide_eq_true hempty)
        rw [hseek]
        obtain ⟨hocc, hlen⟩ := occupied_putslot (Nat.mod_lt _ hpos) (of_decide_eq_true hstop)
          pos (-directsiz (D.dNamlen pos))
        refine ih _ fuel _ (by omega) ?_ ?_ ?_
        · rw [hlen]
          exact hpos
        · rw [hlen, hocc]
          omega
        · rw [hlen]
          omega
      · rw [if_neg hino] at hroom ⊢
        exact ih _ fuel dh (by omega) hpos (by omega) (by omega)
    · exact ⟨some dh, if_neg hlt⟩

/-- With more entries than slots it does not. -/
theorem fillLoop_endless : ∀ (fuel n pos : Nat) (dh : Dirhash), 0 < dh.dhHlen →
    dh.dhHlen < occupied dh.dhHlen dh.dhHash + entriesFrom D env n pos →
    fillLoop D env fuel pos dh = none := by
  intro fuel
  induction fuel with
  | zero => exact fun n pos dh _ _ => rfl
  | succ fuel ih =>
    intro n pos dh hpos hfull
    have hle := occupied_le dh.dhHlen dh.dhHash
    cases n with
    | zero =>
      rw [entriesFrom] at hfull
      omega
    | succ n =>
      rw [entriesFrom] at hfull
      split at hfull
      case isFalse => omega
      case isTrue hgood =>
      obtain ⟨hlt, hread, hbad⟩ := hgood
      rw [fillLoop, if_pos hlt, if_neg hread, if_neg hbad]
      by_cases hino : D.dIno pos ≠ 0
      · rw [if_pos hino] at hfull ⊢
        have hi := hash_lt_hlen hpos (D.dName pos (D.dNamlen pos))
        cases hseek : seek (fun v => v = .empty) dh.dhHlen dh.dhHash fuel
            (dh.hash (D.dName pos (D.dNamlen pos))) with
        | none => rfl
        | some slot =>
          obtain ⟨hslot, hstop⟩ := seek_stops _ fuel _ slot hi hseek
          obtain ⟨hocc, hlen⟩ := occupied_putslot hslot (of_decide_eq_true hstop) pos
            (-directsiz (D.dNamlen pos))
          refine ih n _ _ ?_ ?_
          · rw [hlen]
            exact hpos
          · rw [hlen, hocc]
            omega
      · rw [if_neg hino] at hfull ⊢
        exact ih n _ dh hpos (by omega)

theorem emptyHash_hlen (hsize : dirblksiz ≤ D.iSize) (self : UInt64) :
    0 < (emptyHash D self).dhHlen ∧
      occupied (emptyHash D self).dhHlen (emptyHash D self).dhHash = 0 := by
  refine ⟨?_, Finset.sum_eq_zero (fun _ _ => rfl)⟩
  simp only [emptyHash, dhNblkoff, directsiz]
  unfold dirblksiz at hsize
  omega

/-- The table is filled, or the loop gives up, exactly if there is a slot for every entry
    it comes to. -/
theorem fill_ends_iff (hsize : dirblksiz ≤ D.iSize) (env : SearchEnv) (self : UInt64) :
    (∃ fuel r, fill D env self fuel = some r) ↔ entries D env ≤ (emptyHash D self).dhHlen := by
  obtain ⟨hpos, hocc⟩ := emptyHash_hlen hsize self
  constructor
  · rintro ⟨fuel, r, hrun⟩
    by_contra hnot
    have hnone : fillLoop D env fuel 0 (emptyHash D self) = none :=
      fillLoop_endless fuel D.iSize 0 _ hpos (by rw [hocc]; unfold entries at hnot; omega)
    rw [fill, hnone] at hrun
    exact absurd hrun nofun
  intro hle
  refine ⟨D.iSize + (emptyHash D self).dhHlen + 1, ?_⟩
  exact fillLoop_ends D.iSize 0 _ _ (by omega) hpos (by rw [hocc, Nat.zero_add]; exact hle)
    (Nat.lt_succ_self _)

/-- The records of a well formed directory are fewer than the slots. -/
theorem Directory.Ok.entries_lt (hD : D.Ok) (hpos : 0 < D.iSize) (env : SearchEnv)
    (self : UInt64) : entries D env < (emptyHash D self).dhHlen := by
  have hcount : ∀ (n pos : Nat) (os : List Nat), Tiles D pos os D.iSize →
      entriesFrom D env n pos ≤ os.length := by
    intro n
    induction n with
    | zero => exact fun pos os _ => zero_le
    | succ n ih =>
      intro pos os htile
      rw [entriesFrom]
      split
      case isFalse => exact zero_le
      case isTrue hgood =>
      cases os with
      | nil =>
        have heq : pos = D.iSize := htile
        omega
      | cons o os =>
        obtain rfl : o = pos := htile.1
        have hrest := ih _ os htile.2.2.2
        rw [List.length_cons]
        split <;> omega
  exact lt_of_le_of_lt (hcount D.iSize 0 _ hD.allTiles) (emptyHash_ok hD hpos self).2

/-- The building of the hash of a well formed directory ends. -/
theorem fill_ends (hD : D.Ok) (hsize : dirblksiz ≤ D.iSize) (env : SearchEnv) (self : UInt64) :
    ∃ fuel r, fill D env self fuel = some r := by
  have hpos : 0 < dirblksiz := by decide
  exact (fill_ends_iff hsize env self).mpr (hD.entries_lt (by omega) env self).le

theorem fill_ends_one_record :
    ∃ fuel r, fill (oneRecord 5) ⟨4096, fun _ => none, false, 0⟩ 0 fuel = some r :=
  fill_ends (oneRecord_ok 5) le_rfl _ 0

/-- For a directory that is large enough to be hashed: a lookup that starts where the last
    one ended has the result that it has from the beginning, if the directory is well
    formed, the search ends whatever the directory contains, and so does the building of
    the hash, exactly if there is a slot for every entry that it comes to. -/
theorem cachedSearch_iff (D : Directory) (env : SearchEnv) (self : UInt64)
    (hsize : dirblksiz ≤ D.iSize) :
    ((D.Ok → env.Ok → ∀ (islastcn : Bool) (name : Name) (v fuel : Nat), D.iSize < fuel →
        ∃ p p' r, lookupIno D env .lookup islastcn name (keptDiroff v) fuel = some (p, r) ∧
          lookupIno D env .lookup islastcn name 0 fuel = some (p', r) ∧
          ∀ ino, r = .found ino → p.iOffset = p'.iOffset ∧ D.live p.iOffset = some name) ∧
      (∀ nameiop islastcn name diroff,
        ∃ fuel r, lookupIno D env nameiop islastcn name diroff fuel = some r) ∧
      ∃ fuel r, fill D env self fuel = some r) ↔
    entries D env ≤ (emptyHash D self).dhHlen := by
  rw [← fill_ends_iff hsize env self]
  constructor
  · exact fun h => h.2.2
  intro hfill
  refine ⟨fun hD henv islastcn name v fuel => lookupIno_diroff hD henv islastcn name v fuel,
    lookupIno_ends D env, hfill⟩

/-- What is found around the search: blocks of 4096 bytes that can be read. -/
def quietEnv : SearchEnv :=
  { iosize := 4096, blkatoff := fun _ => none, dirchk := false, maxsymlinklen := 0 }

/-- A directory that has an entry every two bytes. -/
def twos : Directory :=
  { iSize := 2560, data := fun o => if o % 2 = 0 then 2 else 0, ofsfmt := false }

/-- A directory of 512 zeros. -/
def zeros : Directory := { iSize := 512, data := fun _ => 0, ofsfmt := false }

theorem cachedSearch_iff_zeros : entries zeros quietEnv ≤ (emptyHash zeros 0).dhHlen ∧
    (∀ nameiop islastcn name diroff,
      ∃ fuel r, lookupIno zeros quietEnv nameiop islastcn name diroff fuel = some r) ∧
    ∃ fuel r, fill zeros quietEnv 0 fuel = some r := by
  have hle : entries zeros quietEnv ≤ (emptyHash zeros 0).dhHlen := by decide
  have h := (cachedSearch_iff zeros quietEnv 0 (by decide)).mpr hle
  exact ⟨hle, h.2.1, h.2.2⟩

/-- The building of its hash does not end. -/
theorem twos_endless : ¬∃ fuel r, fill twos quietEnv 0 fuel = some r := by
  rw [fill_ends_iff (show dirblksiz ≤ twos.iSize by decide)]
  decide +kernel

end FreeBSDKern.Dir
