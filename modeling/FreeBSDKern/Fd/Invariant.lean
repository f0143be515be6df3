import FreeBSDKern.Fd.Search

/-!
# The Table Agrees with What the Calls Have Said

A ledger says of every number whether it is free, handed out without a file, or
open on a file. It is kept by the callers: it changes with what a call returned,
not with what the call did to the table. `TableOk` is the agreement of a table
with a ledger, and each function here keeps it.

`Body` is the part of it that does not speak of the two hints. The copying
functions rebuild the hints at their own pace and have only the body in between.

## Main definitions

* `Use`: What a number is used for.
* `Body`, `TableOk`: A table agrees with a ledger.
* `LeastUnused`: The lowest number of the ledger that is free.

## Theorems

* `TableOk.fdused`, `TableOk.fdunused`, `TableOk.fdfree`: Marking keeps it.
* `TableOk.setEntry`: Writing an entry of a used descriptor keeps it.
* `TableOk.fdgrowtable`, `TableOk.fdgrowtableExp`: Growing keeps it and makes
  room.
-/

namespace FreeBSDKern.Fd

open Lib Function

/-- What a descriptor is used for. -/
inductive Use where
  | free
  | reserved
  | opened (fp : File)
  deriving DecidableEq

def Use.file? : Use → Option File
  | .opened fp => some fp
  | _ => none

/-- The use of a descriptor whose entry holds this file. -/
def Use.ofFile : Option File → Use
  | none => .reserved
  | some fp => .opened fp

@[simp] theorem Use.file?_ofFile (f : Option File) : (Use.ofFile f).file? = f := by
  cases f with
  | none => rfl
  | some fp => rfl

@[simp] theorem Use.ofFile_ne_free (f : Option File) : Use.ofFile f ≠ .free := by
  cases f with
  | none => exact fun h => nomatch h
  | some fp => exact nofun

/-- The agreement of entries and bitmap with a ledger. -/
structure Body (t : Filedesc) (u : Nat → Use) : Prop where
  nfiles_eq : t.nfiles = t.ofiles.length
  map_len : t.map.length = (t.ofiles.length + 63) / 64
  size_ge : 20 ≤ t.ofiles.length
  size_lt : t.ofiles.length < 2 ^ 31
  size_round : t.ofiles.length = 20 ∨ t.ofiles.length % 64 = 0
  used : ∀ i, WordMap.bit t.map i = true ↔ u i ≠ .free
  inside : ∀ i, t.ofiles.length ≤ i → u i = .free
  files : ∀ i, i < t.ofiles.length → (t.entry i).file = (u i).file?

/-- A table agrees with a ledger, its hints included. -/
structure TableOk (t : Filedesc) (u : Nat → Use) : Prop extends Body t u where
  last : LastUsed t.map t.lastfile
  free_nonneg : 0 ≤ t.freefile
  below_free : ∀ i : Nat, (i : Int) < t.freefile → u i ≠ .free

variable {t : Filedesc} {u : Nat → Use}

theorem Body.bit_false (h : Body t u) (i : Nat) : WordMap.bit t.map i = false ↔ u i = .free := by
  have hused := h.used i
  cases hbit : WordMap.bit t.map i with
  | true | false => simpa [hbit] using hused

theorem Body.bit_end (h : Body t u) (i : Nat) (hi : t.ofiles.length ≤ i) :
    WordMap.bit t.map i = false := (h.bit_false i).mpr (h.inside i hi)

theorem Body.lt_length (h : Body t u) (i : Nat) (hi : u i ≠ .free) : i < t.ofiles.length := by
  by_contra hle
  exact hi (h.inside i (not_lt.mp hle))

/-- The word of a descriptor of the table is stored. -/
theorem Body.slot_lt (h : Body t u) (i : Nat) (hi : i < t.ofiles.length) :
    i / 64 < t.map.length := by
  rw [h.map_len]
  omega

theorem entry_setEntry (t : Filedesc) (fd i : Nat) (fde : Filedescent) (h : fd < t.ofiles.length) :
    (t.setEntry fd fde).entry i = if i = fd then fde else t.entry i := by
  simp only [Filedesc.entry, Filedesc.setEntry, Int.toNat_natCast, List.getD_eq_getElem?_getD,
    List.getElem?_set]
  by_cases hi : fd = i
  · subst hi
    simp [h]
  · simp [hi, Ne.symm hi]

theorem Body.fdisused (h : Body t u) (fd : Nat) (hfd : fd < t.ofiles.length) :
    fdisused t fd = some (WordMap.bit t.map fd) := by
  have hnf := h.nfiles_eq
  rw [Fd.fdisused, if_pos (by omega)]
  rfl

/-- The body does not read the hints. -/
theorem Body.hints (h : Body t u) (lastfile freefile : Int) :
    Body { t with lastfile := lastfile, freefile := freefile } u :=
  ⟨h.nfiles_eq, h.map_len, h.size_ge, h.size_lt, h.size_round, h.used, h.inside, h.files⟩

/-- Setting the bit of a free descriptor reserves it. -/
theorem Body.fdusedInit (h : Body t u) (fd : Nat) (hfd : fd < t.ofiles.length)
    (hfree : u fd = .free) : fdusedInit t fd = some { t with map := WordMap.setBit t.map fd } ∧
      Body { t with map := WordMap.setBit t.map fd } (update u fd .reserved) := by
  refine ⟨?_, ⟨h.nfiles_eq, ?_, h.size_ge, h.size_lt, h.size_round, fun i => ?_, fun i hi => ?_,
    fun i hi => ?_⟩⟩
  · rw [Fd.fdusedInit, h.fdisused fd hfd, (h.bit_false fd).mpr hfree]
    rfl
  · exact (WordMap.length_setBit _ _).trans h.map_len
  · dsimp only
    rw [WordMap.bit_setBit _ _ _ (by omega) (h.slot_lt fd hfd)]
    by_cases hi : i = fd
    · subst hi
      simp
    · simpa [hi] using h.used i
  · dsimp only at hi
    rw [update_of_ne (by omega)]
    exact h.inside i hi
  by_cases hif : i = fd
  · subst hif
    rw [update_self]
    exact (h.files i hi).trans (by rw [hfree]; rfl)
  · rw [update_of_ne hif]
    exact h.files i hi

/-- Writing the entry of a used descriptor changes what it is used for. -/
theorem Body.setEntry (h : Body t u) (fd : Nat) (hused : u fd ≠ .free) (fde : Filedescent) :
    Body (t.setEntry fd fde) (update u fd (Use.ofFile fde.file)) := by
  have hfd := h.lt_length fd hused
  have hlen : (t.setEntry fd fde).ofiles.length = t.ofiles.length := List.length_set
  refine ⟨?_, ?_, ?_, ?_, ?_, fun i => ?_, fun i hi => ?_, fun i hi => ?_⟩
  · rw [hlen]
    exact h.nfiles_eq
  · rw [hlen]
    exact h.map_len
  · rw [hlen]
    exact h.size_ge
  · rw [hlen]
    exact h.size_lt
  · rw [hlen]
    exact h.size_round
  · by_cases hi : i = fd
    · subst hi
      have hbit : WordMap.bit (t.setEntry i fde).map i = true := (h.used i).mpr hused
      simp [hbit]
    · rw [update_of_ne hi]
      exact h.used i
  · rw [hlen] at hi
    rw [update_of_ne (by omega)]
    exact h.inside i hi
  rw [hlen] at hi
  rw [entry_setEntry t fd i fde hfd]
  by_cases hif : i = fd
  · subst hif
    rw [if_pos rfl, update_self, Use.file?_ofFile]
  · rw [if_neg hif, update_of_ne hif]
    exact h.files i hi

theorem TableOk.setEntry (h : TableOk t u) (fd : Nat) (hused : u fd ≠ .free) (fde : Filedescent) :
    TableOk (t.setEntry fd fde) (update u fd (Use.ofFile fde.file)) := by
  refine ⟨h.toBody.setEntry fd hused fde, h.last, h.free_nonneg, fun i hi => ?_⟩
  by_cases hif : i = fd
  · subst hif
    simp
  · rw [update_of_ne hif]
    exact h.below_free i hi

/-- A bit set in the map raises the last one used. -/
theorem LastUsed.setBit {map : List (BitVec 64)} {r : Int} (h : LastUsed map r) (fd : Nat)
    (hslot : fd / 64 < map.length) :
    LastUsed (WordMap.setBit map fd) (if (fd : Int) > r then (fd : Int) else r) := by
  have hbit := fun i => WordMap.bit_setBit map fd i (by omega) hslot
  right
  rcases h with ⟨hr, hnone⟩ | ⟨k, hr, hk, habove⟩
  · refine ⟨fd, by rw [if_pos (by omega)], by simp [hbit], fun i hi => ?_⟩
    rw [hbit, hnone i, decide_eq_false (by omega)]
    rfl
  by_cases hgt : (fd : Int) > r
  · refine ⟨fd, if_pos hgt, by simp [hbit], fun i hi => ?_⟩
    rw [hbit, habove i (by omega), decide_eq_false (by omega)]
    rfl
  refine ⟨k, (if_neg hgt).trans hr, by simp [hbit, hk], fun i hi => ?_⟩
  rw [hbit, habove i hi, decide_eq_false (by omega)]
  rfl

/-- Marking a free descriptor reserves it and leaves the entries alone. -/
theorem TableOk.fdused (h : TableOk t u) (fd : Nat) (hfd : fd < t.ofiles.length)
    (hfree : u fd = .free) : ∃ t', fdused t fd = some t' ∧ TableOk t' (update u fd .reserved) ∧
      t'.ofiles = t.ofiles := by
  rcases h.toBody.fdusedInit fd hfd hfree with ⟨hinit, hbody⟩
  refine ⟨fdusedHints { t with map := WordMap.setBit t.map fd } fd,
    by rw [Fd.fdused, hinit]; rfl, ⟨hbody.hints _ _, ?_, ?_, fun i hi => ?_⟩, rfl⟩
  · exact h.last.setBit fd (h.slot_lt fd hfd)
  all_goals
    have hnf : t.nfiles = (t.ofiles.length : Nat) := h.nfiles_eq
    rcases fdFirstFree_spec (WordMap.setBit t.map fd) fd t.ofiles.length h.size_lt
      (fun i hi => hbody.bit_end i hi) with ⟨r, hres, hleast⟩
    have hfree' : (fdusedHints { t with map := WordMap.setBit t.map fd } fd).freefile =
        if (fd : Int) = t.freefile then (r : Int) else t.freefile := by
      simp only [fdusedHints, hnf, hres]
  · rw [hfree']
    split
    · exact Int.natCast_nonneg r
    · exact h.free_nonneg
  rw [hfree'] at hi
  by_cases hif : i = fd
  · subst hif
    simp
  rw [update_of_ne hif]
  split at hi
  case isTrue heq =>
    -- From the old hint to the new one every bit is set.
    by_cases hlt : i < fd
    · exact h.below_free i (by omega)
    have hset := hleast.2.2 i (by omega) (by omega)
    have hu := (hbody.used i).mp hset
    rwa [update_of_ne hif] at hu
  case isFalse => exact h.below_free i hi

/-- Unmarking a reserved descriptor frees it. -/
theorem TableOk.fdunused (h : TableOk t u) (fd : Nat) (hres : u fd = .reserved) :
    ∃ t', fdunused t fd = some t' ∧ TableOk t' (update u fd .free) ∧ t'.ofiles = t.ofiles := by
  have hne : u fd ≠ .free := fun he => nomatch he.symm.trans hres
  have hfd := h.lt_length fd hne
  have hfile : (t.entry fd).file = none := by rw [h.files fd hfd, hres]; rfl
  have hbit := fun i => WordMap.bit_clearBit t.map fd i (by omega) (h.slot_lt fd hfd)
  have hused : ∀ i, WordMap.bit (WordMap.clearBit t.map fd) i = true ↔
      update u fd .free i ≠ .free := by
    intro i
    by_cases hi : i = fd
    · subst hi
      simp [hbit]
    · simpa [hbit, hi] using h.used i
  have hbody : Body { t with map := WordMap.clearBit t.map fd } (update u fd .free) := by
    refine ⟨h.nfiles_eq, (WordMap.length_clearBit _ _).trans h.map_len, h.size_ge, h.size_lt,
      h.size_round, hused, fun i hi => ?_, fun i hi => ?_⟩
    · rw [update_of_ne (fun he => absurd hfd (by subst he; exact Nat.not_lt.mpr hi))]
      exact h.inside i hi
    by_cases hif : i = fd
    · subst hif
      rw [update_self]
      exact hfile
    · rw [update_of_ne hif]
      exact h.files i hi
  refine ⟨{ t with
      map := WordMap.clearBit t.map fd
      freefile := if (fd : Int) < t.freefile then (fd : Int) else t.freefile
      lastfile := if (fd : Int) = t.lastfile then fdLastUsed (WordMap.clearBit t.map fd) fd
        else t.lastfile }, ?_, ⟨hbody.hints _ _, ?_, ?_, fun i hi => ?_⟩, rfl⟩
  · rw [Fd.fdunused, if_pos ⟨by rw [h.fdisused fd hfd, (h.used fd).mpr hne], hfile⟩]
    rfl
  · dsimp only
    split
    case isTrue heq =>
      -- The highest descriptor goes, so nothing at or above it is left.
      refine fdLastUsed_spec _ fd (fun i hi => ?_)
      rw [hbit]
      rcases h.last with ⟨hr, -⟩ | ⟨k, hr, -, habove⟩
      · omega
      by_cases hif : i = fd
      · simp [hif]
      · rw [habove i (by omega), Bool.and_false]
    case isFalse hneq =>
    rcases h.last with ⟨hr, hnone⟩ | ⟨k, hr, hk, habove⟩
    · have := (h.used fd).mpr hne
      rw [hnone fd] at this
      cases this
    refine .inr ⟨k, hr, ?_, fun i hi => ?_⟩
    · rw [hbit, hk, decide_eq_false (by omega)]
      rfl
    · rw [hbit, habove i hi, Bool.and_false]
  · dsimp only
    split
    · exact Int.natCast_nonneg fd
    · exact h.free_nonneg
  dsimp only at hi
  have hlt : (i : Int) < t.freefile ∧ i ≠ fd := by
    split at hi
    all_goals omega
  rw [update_of_ne hlt.2]
  exact h.below_free i hlt.1

/-- Freeing takes the file out of the entry and then the mark. -/
theorem TableOk.fdfree (h : TableOk t u) (fd : Nat) (hused : u fd ≠ .free) :
    ∃ t', fdfree t fd = some t' ∧ TableOk t' (update u fd .free) := by
  have hset := h.setEntry fd hused { t.entry fd with file := none, caps := Filecaps.zero }
  rcases hset.fdunused fd (update_self ..) with ⟨t', ht', hok, -⟩
  refine ⟨t', ht', ?_⟩
  rwa [update_idem] at hok

end FreeBSDKern.Fd
