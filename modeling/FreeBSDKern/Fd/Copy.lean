import FreeBSDKern.Fd.Alloc

/-!
# Copying a Table

`fdcopy` walks the old table and keeps what may be passed on; `fdcopy_remapped`
fills the new table from the bottom with the descriptors it is told to take.
Both rebuild the hints as they go. `fdcopy` notes the first descriptor it skips
and uses -1 for "none so far"; the other knows from the start that everything
below the number of descriptors will be in use, and that only holds when it is
done.

## Main definitions

* `passOn`, `copied`: The ledger of a copy.
* `remapped`: The ledger of a remapped copy.
* `Copying`: A new table during `fdcopy`.

## Theorems

* `fdinit_ok`: The empty table agrees with the empty ledger and has the room.
* `TableOk.fdcopy`: A copy agrees with the ledger of what may be passed on.
* `TableOk.fdcopyRemapped`: A remapped copy agrees with its ledger.
-/

namespace FreeBSDKern.Fd

open Lib Function

variable {t : Filedesc} {u v : Nat → Use}

theorem fdinit0_ok : TableOk fdinit0 (fun _ => .free) := by
  have hbit : ∀ i, WordMap.bit fdinit0.map i = false :=
    fun i => (WordMap.bit_append_zeros [] 1 i).trans (WordMap.bit_of_length_le [] i zero_le)
  refine ⟨⟨rfl, rfl, by decide, by decide, .inl rfl, fun i => ?_, fun i _ => rfl, fun i hi => ?_⟩,
    .inl ⟨rfl, hbit⟩, by decide, fun i hi => ?_⟩
  · simp [hbit i]
  · have hentry : fdinit0.entry i = Filedescent.zero := by
      simp only [Filedesc.entry, fdinit0, Int.toNat_natCast, List.getD_eq_getElem?_getD,
        List.getElem?_replicate]
      split
      all_goals rfl
    rw [hentry]
    rfl
  · exact absurd (show (i : Int) < 0 from hi) (by omega)

theorem prepfiles_ok (h : TableOk t u) (lastfile : Int) (hlast : lastfile + 64 < 2 ^ 31) :
    TableOk (prepfiles t lastfile) u ∧ lastfile < (prepfiles t lastfile).ofiles.length := by
  have hnf := h.nfiles_eq
  rw [prepfiles]
  split
  case isTrue hge =>
    rw [show toInt (lastfile + 1) = ((lastfile + 1).toNat : Int) by
      rw [toInt_of_lt _ (by omega) (by omega)]
      omega]
    rcases h.fdgrowtable (lastfile + 1).toNat (by omega) with ⟨hok, hroom⟩
    exact ⟨hok, by omega⟩
  case isFalse hlt => exact ⟨h, by omega⟩

/-- The table a copy starts from is empty and has room for the old one. -/
theorem fdinit_ok (seen : List Int) (last : Int) (hseen : ∀ v ∈ seen, v < 2 ^ 30)
    (hlast : last + 64 < 2 ^ 31) : TableOk (fdinit (seen ++ [last])) (fun _ => .free) ∧
      last < (fdinit (seen ++ [last])).ofiles.length := by
  have hfold : ∀ t, TableOk t (fun _ => .free) → TableOk (seen.foldl prepfiles t)
      (fun _ => .free) := by
    clear hlast
    induction seen with
    | nil => exact fun t h => h
    | cons v vs ih =>
      intro t h
      have hv := hseen v List.mem_cons_self
      exact ih (fun w hw => hseen w (List.mem_cons_of_mem v hw)) _ (prepfiles_ok h v (by omega)).1
  rw [fdinit, List.foldl_append]
  exact prepfiles_ok (hfold _ fdinit0_ok) last hlast

/-- The last descriptor leaves room for the rounding of a grown table. -/
theorem TableOk.lastfile_bound (h : TableOk t u) : t.lastfile + 64 < 2 ^ 31 := by
  have hlt := h.lastfile_lt
  have hsize := h.size_lt
  have hround := h.size_round
  omega

/-- Filling a free entry and setting its bit, in the order of the copies. -/
theorem Body.fillEntry (h : Body t u) (fd : Nat) (hfd : fd < t.ofiles.length) (hfree : u fd = .free)
    (fde : Filedescent) : ∃ t', Fd.fdusedInit (t.setEntry fd fde) fd = some t' ∧
      Body t' (update u fd (Use.ofFile fde.file)) ∧
      t'.map = WordMap.setBit t.map fd ∧ t'.freefile = t.freefile ∧
      t'.ofiles.length = t.ofiles.length := by
  rcases h.fdusedInit fd hfd hfree with ⟨hinit, hbody⟩
  have hset := hbody.setEntry fd (by simp) fde
  rw [update_idem] at hset
  refine ⟨({ t with map := WordMap.setBit t.map fd } : Filedesc).setEntry fd fde, ?_, hset, rfl,
    rfl, List.length_set⟩
  -- The check and the mark do not read the entries.
  have hsame : Fd.fdisused (t.setEntry fd fde) fd = Fd.fdisused t fd := rfl
  rw [Fd.fdusedInit, hsame, h.fdisused fd hfd, (h.bit_false fd).mpr hfree]
  rfl

theorem LastUsed.setTop {map : List (BitVec 64)} (fd : Nat) (hslot : fd / 64 < map.length)
    (hend : ∀ i, fd ≤ i → WordMap.bit map i = false) : LastUsed (WordMap.setBit map fd) fd := by
  refine .inr ⟨fd, rfl, ?_, fun i hi => ?_⟩
  · rw [WordMap.bit_setBit _ _ _ (by omega) hslot, decide_eq_true rfl, Bool.true_or]
  · rw [WordMap.bit_setBit _ _ _ (by omega) hslot, hend i (by omega), decide_eq_false (by omega)]
    rfl

/-- What a copy keeps of a descriptor. -/
def passOn : Use → Use
  | .opened fp => if fp.passable then .opened fp else .free
  | _ => .free

/-- The ledger of a copy of the first `n` descriptors. -/
def copied (u : Nat → Use) (n i : Nat) : Use := if i < n then passOn (u i) else .free

theorem copied_succ (u : Nat → Use) (n : Nat) :
    copied u (n + 1) = update (copied u n) n (passOn (u n)) := by
  ext i
  by_cases hi : i = n
  · subst hi
    simp [copied]
  · have hlt : (i < n + 1) = (i < n) := propext (by omega)
    simp [copied, hi, hlt]

/-- A new table after `n` rounds of `fdcopy`. -/
structure Copying (t : Filedesc) (v : Nat → Use) (n : Nat) : Prop where
  body : Body t v
  last : LastUsed t.map t.lastfile
  hint : (t.freefile = -1 ∧ ∀ i, i < n → v i ≠ .free) ∨
    (0 ≤ t.freefile ∧ ∀ i : Nat, (i : Int) < t.freefile → v i ≠ .free)

/-- A round that skips its descriptor. -/
theorem Copying.skip {new : Filedesc} {n : Nat} (h : Copying new (copied u n) n)
    (hpass : passOn (u n) = .free) :
    Copying (if new.freefile = -1 then { new with freefile := n } else new) (copied u (n + 1))
      (n + 1) := by
  have hsame : copied u (n + 1) = copied u n := by
    rw [copied_succ, hpass]
    exact Function.update_eq_self_iff.mpr (by simp [copied])
  rw [hsame]
  split
  case isTrue hnone =>
    refine ⟨h.body.hints _ _, h.last, .inr ⟨Int.natCast_nonneg n, fun i hi => ?_⟩⟩
    rcases h.hint with ⟨-, hall⟩ | ⟨hnonneg, -⟩
    · exact hall i (Int.ofNat_lt.mp hi)
    · omega
  case isFalse hsome =>
  refine ⟨h.body, h.last, .inr ?_⟩
  rcases h.hint with ⟨hnone, -⟩ | hok
  · exact absurd hnone hsome
  · exact hok

theorem TableOk.fdcopyOne (h : TableOk t u) {new : Filedesc} {n : Nat}
    (hnew : Copying new (copied u n) n) (hn : n < t.ofiles.length) (hroom : n < new.ofiles.length) :
    ∃ new', fdcopyOne t new n = some new' ∧ Copying new' (copied u (n + 1)) (n + 1) ∧
      new'.ofiles.length = new.ofiles.length := by
  have hfile := h.files n hn
  have hlen : (if new.freefile = -1 then { new with freefile := (n : Int) }
      else new).ofiles.length = new.ofiles.length := by
    split
    all_goals rfl
  rw [Fd.fdcopyOne]
  cases hfp : (u n).file? with
  | none =>
    rw [hfp] at hfile
    have hpass : passOn (u n) = .free := by
      cases hu : u n with
      | free | reserved => rfl
      | opened fp => rw [hu] at hfp; cases hfp
    rw [hfile]
    exact ⟨_, rfl, hnew.skip hpass, hlen⟩
  | some fp =>
    rw [hfp] at hfile
    have hu := Use.eq_opened hfp
    rw [hfile]
    dsimp only
    split
    case isTrue hpassable =>
      have hpass : passOn (u n) = Use.ofFile (t.entry n).file := by
        rw [hu, passOn, if_pos hpassable, hfile]
        rfl
      have hempty : ∀ i, n ≤ i → copied u n i = .free := fun i hi => if_neg (by omega)
      rcases hnew.body.fillEntry n hroom (hempty n le_rfl) (t.entry n) with
        ⟨new', hinit, hbody, hmap, hfree, hsize⟩
      rw [hinit]
      refine ⟨_, rfl, ⟨?_, ?_, ?_⟩, hsize⟩
      · rw [copied_succ, hpass]
        exact hbody.hints _ _
      · change LastUsed new'.map n
        rw [hmap]
        exact LastUsed.setTop n (hnew.body.slot_lt n hroom)
          (fun i hi => (hnew.body.bit_false i).mpr (hempty i hi))
      dsimp only
      rw [hfree, copied_succ, hpass]
      rcases hnew.hint with ⟨hnone, hall⟩ | ⟨hnonneg, hall⟩
      · refine .inl ⟨hnone, fun i hi => ?_⟩
        by_cases hin : i = n
        · simp [hin]
        · rw [update_of_ne hin]
          exact hall i (by omega)
      refine .inr ⟨hnonneg, fun i hi => ?_⟩
      by_cases hin : i = n
      · simp [hin]
      · rw [update_of_ne hin]
        exact hall i hi
    case isFalse hpassable =>
      exact ⟨_, rfl, hnew.skip (by rw [hu, passOn, if_neg hpassable]), hlen⟩

/-- The rounds from `n` on. -/
theorem TableOk.fdcopyLoop (h : TableOk t u) (k : Nat) :
    ∀ (n : Nat) (new : Filedesc), Copying new (copied u n) n → n + k ≤ t.ofiles.length →
      n + k ≤ new.ofiles.length → ∃ new', fdcopyLoop t new (List.range' n k) = some new' ∧
        Copying new' (copied u (n + k)) (n + k) := by
  induction k with
  | zero => exact fun n new hnew _ _ => ⟨new, rfl, hnew⟩
  | succ k ih =>
    intro n new hnew hn hroom
    rcases h.fdcopyOne hnew (by omega) (by omega) with ⟨new', hone, hnew', hlen⟩
    rcases ih (n + 1) new' hnew' (by omega) (by omega) with ⟨new'', hloop, hnew''⟩
    refine ⟨new'', ?_, ?_⟩
    · rw [List.range'_succ, Fd.fdcopyLoop, hone]
      exact hloop
    · rw [show n + (k + 1) = n + 1 + k by omega]
      exact hnew''

/-- A ledger with nothing past the last descriptor copies as a whole. -/
theorem TableOk.copied_all (h : TableOk t u) :
    copied u (t.lastfile + 1).toNat = fun i => passOn (u i) := by
  ext i
  rw [copied]
  split
  case isTrue => rfl
  case isFalse hi =>
  have hfree : u i = .free := by
    rw [← h.bit_false]
    rcases h.last with ⟨-, hnone⟩ | ⟨k, hr, -, habove⟩
    · exact hnone i
    · exact habove i (by omega)
  rw [hfree]
  rfl

theorem TableOk.lastfile_ge (h : TableOk t u) : -1 ≤ t.lastfile := by
  rcases h.last with ⟨hr, -⟩ | ⟨k, hr, -, -⟩
  all_goals omega

/-- A copy holds what may be passed on, and its hints are right again. -/
theorem TableOk.fdcopy (h : TableOk t u) (seen : List Int) (hseen : ∀ v ∈ seen, v < 2 ^ 30) :
    ∃ t', fdcopy t seen = some t' ∧ TableOk t' (fun i => passOn (u i)) := by
  have hge := h.lastfile_ge
  have hlt := h.lastfile_lt
  rcases fdinit_ok seen t.lastfile hseen h.lastfile_bound with ⟨hinit, hroom⟩
  have hstart : Copying { fdinit (seen ++ [t.lastfile]) with freefile := -1 } (copied u 0) 0 := by
    have hempty : copied u 0 = fun _ => .free := by
      ext i
      exact if_neg (Nat.not_lt_zero i)
    rw [hempty]
    exact ⟨hinit.toBody.hints _ _, hinit.last, .inl ⟨rfl, fun i hi => absurd hi (Nat.not_lt_zero i)⟩⟩
  rcases h.fdcopyLoop (t.lastfile + 1).toNat 0 _ hstart (by omega) (by dsimp only; omega) with
    ⟨new, hloop, hnew⟩
  rw [Nat.zero_add, h.copied_all] at hnew
  rw [← List.range_eq_range'] at hloop
  rw [Fd.fdcopy]
  dsimp only
  rw [hloop]
  refine ⟨_, rfl, ?_⟩
  dsimp only
  rcases hnew.hint with ⟨hnone, hall⟩ | ⟨hnonneg, hall⟩
  · rw [if_pos hnone]
    exact ⟨hnew.body.hints _ _, hnew.last, by dsimp only; omega,
      fun i hi => hall i (by dsimp only at hi; omega)⟩
  · rw [if_neg (by omega)]
    exact ⟨hnew.body, hnew.last, hnonneg, hall⟩

/-- The ledger of a remapped copy. -/
def remapped (u : Nat → Use) (fds : List Int) (i : Nat) : Use :=
  match fds[i]? with
  | some fd => u fd.toNat
  | none => .free

theorem remapped_of_length_le (u : Nat → Use) (fds : List Int) (i : Nat) (h : fds.length ≤ i) :
    remapped u fds i = .free := by
  rw [remapped, List.getElem?_eq_none h]

theorem remapped_snoc (u : Nat → Use) (fds : List Int) (fd : Int) :
    remapped u (fds ++ [fd]) = update (remapped u fds) fds.length (u fd.toNat) := by
  ext i
  by_cases hi : i = fds.length
  · subst hi
    simp [remapped]
  rw [update_of_ne hi]
  by_cases hlt : i < fds.length
  · rw [remapped, remapped, List.getElem?_append_left hlt]
  · rw [remapped_of_length_le u fds i (by omega),
      remapped_of_length_le u _ i (by rw [List.length_append, List.length_singleton]; omega)]

/-- The rest of a remapped copy, when the descriptors `done` have been taken. -/
theorem TableOk.remapLoop (h : TableOk t u) (fds : List Int) :
    ∀ (done : List Int) (new : Filedesc), Body new (remapped u done) →
      LastUsed new.map new.lastfile → (∀ i, i < done.length → remapped u done i ≠ .free) →
      done.length + fds.length ≤ new.ofiles.length →
      (∃ e, remapLoop t done.length fds new = some (.error e)) ∨
        ∃ t', remapLoop t done.length fds new = some (.ok t') ∧ Body t' (remapped u (done ++ fds)) ∧
          LastUsed t'.map t'.lastfile ∧ t'.freefile = new.freefile ∧
          ∀ i, i < (done ++ fds).length → remapped u (done ++ fds) i ≠ .free := by
  induction fds with
  | nil =>
    intro done new hbody hlast hall hroom
    rw [List.append_nil]
    exact .inr ⟨new, rfl, hbody, hlast, rfl, hall⟩
  | cons fd fds ih =>
    intro done new hbody hlast hall hroom
    rw [List.length_cons] at hroom
    rw [Fd.remapLoop]
    split
    case isTrue => exact .inl ⟨_, rfl⟩
    case isFalse hin =>
    have hlt := h.lastfile_lt
    lift fd to Nat using by omega
    have hfile := h.files fd (by omega)
    dsimp only
    cases hfp : (u fd).file? with
    | none =>
      rw [hfile, hfp]
      exact .inl ⟨_, rfl⟩
    | some fp =>
      have hu := Use.eq_opened hfp
      rw [hfp] at hfile
      rw [hfile]
      dsimp only
      split
      case isTrue =>
        rcases hbody.fillEntry done.length (by omega)
          (remapped_of_length_le u done _ le_rfl) (t.entry fd) with
          ⟨new', hinit, hbody', hmap, hfree, hsize⟩
        have hledger : update (remapped u done) done.length
            (Use.ofFile (t.entry fd).file) = remapped u (done ++ [(fd : Int)]) := by
          rw [remapped_snoc, hfile, Int.toNat_natCast, hu]
          rfl
        rw [hledger] at hbody'
        rw [hinit]
        dsimp only
        have hnext := ih (done ++ [(fd : Int)]) { new' with lastfile := done.length }
          (hbody'.hints _ _) ?_ ?_ ?_
        · rw [List.length_append, List.length_singleton, List.append_assoc] at hnext
          dsimp only at hnext
          rw [← hfree]
          exact hnext
        · dsimp only
          rw [hmap]
          exact LastUsed.setTop done.length (hbody.slot_lt _ (by omega)) (fun i hi =>
            (hbody.bit_false i).mpr (remapped_of_length_le u done i hi))
        · intro i hi
          rw [List.length_append, List.length_singleton] at hi
          rw [remapped_snoc, Int.toNat_natCast, hu]
          by_cases hid : i = done.length
          · rw [hid, update_self]
            exact fun he => nomatch he
          · rw [update_of_ne hid]
            exact hall i (by omega)
        rw [List.length_append, List.length_singleton]
        dsimp only
        omega
      case isFalse => exact .inl ⟨_, rfl⟩

/-- A remapped copy is refused or holds the descriptors it was told to take. -/
theorem TableOk.fdcopyRemapped (h : TableOk t u) (seen : List Int) (hseen : ∀ v ∈ seen, v < 2 ^ 30)
    (fds : List Int) : (∃ e, fdcopyRemapped t seen fds = some (.error e)) ∨
      ∃ t', fdcopyRemapped t seen fds = some (.ok t') ∧ TableOk t' (remapped u fds) := by
  have hge := h.lastfile_ge
  rcases fdinit_ok seen t.lastfile hseen h.lastfile_bound with ⟨hinit, hroom⟩
  rw [Fd.fdcopyRemapped]
  split
  case isTrue => exact .inl ⟨_, rfl⟩
  case isFalse hfit =>
  have hempty : remapped u [] = fun _ => .free := by
    ext i
    rfl
  have hloop := h.remapLoop fds []
    { fdinit (seen ++ [t.lastfile]) with freefile := fds.length }
    (by rw [hempty]; exact hinit.toBody.hints _ _) hinit.last
    (fun i hi => absurd hi (Nat.not_lt_zero i))
    (by rw [List.length_nil]; dsimp only; omega)
  rcases hloop with herr | ⟨t', hres, hbody, hlast, hfree, hall⟩
  · exact .inl herr
  refine .inr ⟨t', hres, hbody, hlast, ?_, ?_⟩
  · rw [hfree]
    exact Int.natCast_nonneg _
  intro i hi
  rw [hfree] at hi
  exact hall i (by dsimp only at hi; rw [List.nil_append]; omega)

end FreeBSDKern.Fd
