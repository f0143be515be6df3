import FreeBSDKern.Fd.Invariant

/-!
# Allocating and Duplicating Descriptors

The table grows before a descriptor outside it is marked, and grows by at least
a factor of two. The sizes fit an `int` because a table only grows for a
descriptor below `maxfd`: the doubled size is then below twice the bound, and a
size that is not the first one is a multiple of the word, which leaves room for
the rounding.

## Main definitions

* `LeastUnused`: The lowest free number of a ledger, from a bound on.
* `Limits.Admits`: The accounting lets the table grow as far as an allocation
  needs.

## Theorems

* `TableOk.fdgrowtable`, `TableOk.fdgrowtableExp`: Growing keeps the agreement.
* `fdalloc_granted`, `fdalloc_refused`: What an allocation returns and does.
* `kernDup_spec`: Duplicating keeps the agreement.
-/

namespace FreeBSDKern.Fd

open Lib Function

variable {t : Filedesc} {u : Nat → Use}

theorem toInt_of_lt (x : Int) (hlo : -2 ^ 31 ≤ x) (hhi : x < 2 ^ 31) : toInt x = x :=
  Int.bmod_eq_of_le_mul_two (by omega) (by omega)

theorem umin_eq (a b : Int) (ha : 0 ≤ a) (ha' : a < 2 ^ 31) (hb : 0 ≤ b) (hb' : b < 2 ^ 31) :
    umin a b = min a b := by
  rw [umin, Int.emod_eq_of_lt ha (by omega), Int.emod_eq_of_lt hb (by omega)]
  exact toInt_of_lt _ (by omega) (by omega)

/-- The rounded size of a grown table. -/
theorem rounded (n : Nat) (h : n + 63 < 2 ^ 31) :
    toInt (ndslots (toULong n) * ndentries) = ((n + 63) / 64 * 64 : Nat) := by
  rw [toULong_natCast n (by omega), ndslots_eq n (by omega)]
  simp only [ndentries]
  rw [toInt_of_lt _ (by omega) (by omega)]
  omega

theorem entry_append (t : Filedesc) (n i : Nat) (l : List Filedescent)
    (h : l = t.ofiles ++ List.replicate n Filedescent.zero) :
    l.getD i Filedescent.zero = t.entry i := by
  subst h
  simp only [Filedesc.entry, Int.toNat_natCast, List.getD_eq_getElem?_getD, List.getElem?_append,
    List.getElem?_replicate]
  by_cases hi : i < t.ofiles.length
  · simp [hi]
  rw [if_neg hi, List.getElem?_eq_none (not_lt.mp hi)]
  split
  all_goals rfl

/-- Growing keeps the agreement and both hints, and makes the room asked for. -/
theorem Body.fdgrowtable (h : Body t u) (nfd : Nat) (hnfd : nfd + 63 < 2 ^ 31) :
    Body (fdgrowtable t nfd) u ∧ nfd ≤ (fdgrowtable t nfd).ofiles.length ∧
      (fdgrowtable t nfd).lastfile = t.lastfile ∧ (fdgrowtable t nfd).freefile = t.freefile ∧
      (∀ i, WordMap.bit (fdgrowtable t nfd).map i = WordMap.bit t.map i) ∧
      ∀ i : Nat, (fdgrowtable t nfd).entry i = t.entry i := by
  have hnf := h.nfiles_eq
  have hlt := h.size_lt
  have hge := h.size_ge
  have hmap := h.map_len
  rw [Fd.fdgrowtable, rounded nfd hnfd]
  split
  case isTrue hle =>
    exact ⟨h, by omega, rfl, rfl, fun i => rfl, fun i => rfl⟩
  case isFalse hgt =>
  -- The old sizes, as the numbers they are.
  have hon : t.nfiles.toNat = t.ofiles.length := by omega
  have hnn : ((((nfd + 63) / 64 * 64 : Nat) : Int)).toNat = (nfd + 63) / 64 * 64 :=
    Int.toNat_natCast _
  have hosl : ndslots (toULong t.nfiles) = t.map.length := by
    rw [hnf, toULong_natCast _ (by omega), ndslots_eq _ (by omega), hmap]
  have hnsl : ndslots (toULong (((nfd + 63) / 64 * 64 : Nat) : Int)) = (nfd + 63) / 64 := by
    rw [toULong_natCast _ (by omega), ndslots_eq _ (by omega)]
    omega
  have htake : t.ofiles.take t.nfiles.toNat = t.ofiles := by rw [hon, List.take_length]
  dsimp only
  rw [htake, hosl, hnsl, hnn, hon, List.take_length]
  have hlen : (t.ofiles ++ List.replicate ((nfd + 63) / 64 * 64 - t.ofiles.length)
      Filedescent.zero).length = (nfd + 63) / 64 * 64 := by
    rw [List.length_append, List.length_replicate]
    omega
  have hbit : ∀ i, WordMap.bit (if (nfd + 63) / 64 > t.map.length then
      t.map ++ List.replicate ((nfd + 63) / 64 - t.map.length) 0#64 else t.map) i =
      WordMap.bit t.map i := by
    intro i
    split
    · exact WordMap.bit_append_zeros _ _ i
    · rfl
  have hentry : ∀ i : Nat, (t.ofiles ++ List.replicate ((nfd + 63) / 64 * 64 - t.ofiles.length)
      Filedescent.zero).getD i Filedescent.zero = t.entry i :=
    fun i => entry_append t _ i _ rfl
  refine ⟨⟨?_, ?_, ?_, ?_, ?_, fun i => ?_, fun i hi => ?_, fun i hi => ?_⟩, ?_, rfl, rfl, hbit,
    hentry⟩
  · dsimp only
    rw [hlen]
  · dsimp only
    rw [hlen]
    split
    · rw [List.length_append, List.length_replicate]
      omega
    · omega
  · dsimp only
    rw [hlen]
    omega
  · dsimp only
    rw [hlen]
    omega
  · dsimp only
    rw [hlen]
    omega
  · dsimp only
    rw [hbit i]
    exact h.used i
  · dsimp only at hi
    rw [hlen] at hi
    exact h.inside i (by omega)
  · -- An entry that is new holds no file, and its number is free.
    change ((_ : List Filedescent).getD i Filedescent.zero).file = _
    rw [hentry i]
    by_cases hold : i < t.ofiles.length
    · exact h.files i hold
    rw [h.inside i (not_lt.mp hold), Filedesc.entry, Int.toNat_natCast,
      List.getD_eq_getElem?_getD, List.getElem?_eq_none (not_lt.mp hold)]
    rfl
  · rw [hlen]
    omega

theorem LastUsed.congr {map map' : List (BitVec 64)} {r : Int} (h : LastUsed map r)
    (hbit : ∀ i, WordMap.bit map' i = WordMap.bit map i) : LastUsed map' r := by
  simpa only [LastUsed, hbit] using h

theorem TableOk.fdgrowtable (h : TableOk t u) (nfd : Nat) (hnfd : nfd + 63 < 2 ^ 31) :
    TableOk (fdgrowtable t nfd) u ∧ nfd ≤ (fdgrowtable t nfd).ofiles.length := by
  rcases h.toBody.fdgrowtable nfd hnfd with ⟨hbody, hroom, hlast, hfree, hbit, -⟩
  refine ⟨⟨hbody, ?_, ?_, ?_⟩, hroom⟩
  · rw [hlast]
    exact h.last.congr hbit
  · rw [hfree]
    exact h.free_nonneg
  · rw [hfree]
    exact h.below_free

/-- Growing for a descriptor that is outside the table and below the bound. -/
theorem TableOk.fdgrowtableExp (h : TableOk t u) (nfd : Nat) (hnfd : nfd ≤ 2 ^ 30)
    (hsize : t.ofiles.length < 2 ^ 30) :
    TableOk (fdgrowtableExp t nfd) u ∧ nfd ≤ (fdgrowtableExp t nfd).ofiles.length := by
  have hround := h.size_round
  have hdouble : toInt (t.nfiles * 2) = (2 * t.ofiles.length : Nat) := by
    rw [h.nfiles_eq, toInt_of_lt _ (by omega) (by omega)]
    omega
  rw [Fd.fdgrowtableExp, hdouble]
  split
  case isTrue hlt => exact h.fdgrowtable nfd (by omega)
  case isFalse hge =>
    rcases h.fdgrowtable (2 * t.ofiles.length) (by omega) with ⟨hok, hroom⟩
    exact ⟨hok, by omega⟩

/-- The lowest free number of a ledger from a bound on. -/
def LeastUnused (u : Nat → Use) (minfd : Int) (d : Nat) : Prop :=
  minfd ≤ d ∧ u d = .free ∧ ∀ i : Nat, minfd ≤ i → i < d → u i ≠ .free

theorem LeastUnused.unique {minfd : Int} {d e : Nat} (hd : LeastUnused u minfd d)
    (he : LeastUnused u minfd e) : d = e := by
  rcases Nat.lt_trichotomy d e with hlt | heq | hgt
  · exact absurd hd.2.1 (he.2.2 d hd.1 hlt)
  · exact heq
  · exact absurd he.2.1 (hd.2.2 e he.1 hgt)

/-- The search of an allocation finds the lowest free number. -/
theorem TableOk.firstFree (h : TableOk t u) (minfd : Int) : ∃ d, LeastUnused u minfd d ∧
      fdFirstFree t.map (if t.freefile > minfd then t.freefile else minfd) t.nfiles = d := by
  have hnonneg := h.free_nonneg
  have hlow : (if t.freefile > minfd then t.freefile else minfd) = (max t.freefile minfd).toNat := by
    split
    all_goals omega
  rcases fdFirstFree_spec t.map (max t.freefile minfd).toNat t.ofiles.length h.size_lt
    (fun i hi => h.bit_end i hi) with ⟨r, hres, hle, hfree, hset⟩
  refine ⟨r, ⟨by omega, (h.bit_false r).mp hfree, fun i hlo hhi => ?_⟩, by
    rw [hlow, h.nfiles_eq, hres]⟩
  -- Below the hint a number is in use by the invariant, above it by the search.
  by_cases hi : (i : Int) < t.freefile
  · exact h.below_free i hi
  · exact (h.used i).mp (hset i (by omega) hhi)

/-- The accounting admits the growth an allocation of `d` needs, if any. -/
def Limits.Admits (lim : Limits) (t : Filedesc) (d : Nat) : Prop :=
  t.nfiles ≤ d → lim.refuses (min (2 * (d : Int)) lim.maxfd) = false

section

variable (h : TableOk t u) (lim : Limits)
include h lim

/-- The descriptor an allocation settles on is marked. -/
theorem TableOk.fdallocMark (d : Nat) (hmax : (d : Int) < lim.maxfd)
    (hbound : lim.maxfd ≤ 2 ^ 30) (hfree : u d = .free) (hroom : d < t.ofiles.length) :
    ∃ t', fdallocMark lim t d = some (.ok (d : Int), t') ∧
      TableOk t' (update u d .reserved) ∧ t'.ofiles = t.ofiles := by
  rcases h.fdused d hroom hfree with ⟨t', hused, hok, hsame⟩
  have hnf := h.nfiles_eq
  have hlt := h.size_lt
  refine ⟨t', ?_, hok, hsame⟩
  have hfile : (t.entry d).file = none := by rw [h.files d hroom, hfree]; rfl
  have hmin : (d : Int) < umin lim.maxfd t.nfiles := by
    rw [umin_eq _ _ (by omega) (by omega) (by omega) (by omega)]
    omega
  rw [Fd.fdallocMark, if_pos ⟨by omega, hmin, hfile⟩, hused]
  rfl

theorem fdalloc_granted (hbound : lim.maxfd ≤ 2 ^ 30)
    (minfd : Int) (d : Nat) (hd : LeastUnused u minfd d) (hmax : (d : Int) < lim.maxfd)
    (hadm : lim.Admits t d) : ∃ t', fdalloc lim t minfd = some (.ok (d : Int), t') ∧
      TableOk t' (update u d .reserved) := by
  rcases h.firstFree minfd with ⟨d', hd', hres⟩
  rw [hd'.unique hd] at hres
  have hnf := h.nfiles_eq
  rw [fdalloc]
  dsimp only
  rw [hres, if_neg (by omega)]
  split
  case isTrue hout =>
    have halloc : umin (toInt ((d : Int) * 2)) lim.maxfd = (min (2 * d) lim.maxfd.toNat : Nat) := by
      rw [toInt_of_lt _ (by omega) (by omega),
        umin_eq _ _ (by omega) (by omega) (by omega) (by omega)]
      omega
    have hno := hadm (by omega)
    rw [show min (2 * (d : Int)) lim.maxfd = (min (2 * d) lim.maxfd.toNat : Nat) by omega] at hno
    rw [halloc, hno]
    have hge := h.size_ge
    rcases h.fdgrowtableExp (min (2 * d) lim.maxfd.toNat) (by omega) (by omega) with ⟨hok, hroom⟩
    rcases hok.fdallocMark lim d hmax hbound hd.2.1 (by omega) with ⟨t', hmark, hok', -⟩
    exact ⟨t', by simpa using hmark, hok'⟩
  case isFalse hin =>
    rcases h.fdallocMark lim d hmax hbound hd.2.1 (by omega) with ⟨t', hmark, hok, -⟩
    exact ⟨t', hmark, hok⟩

theorem fdalloc_refused (hbound : lim.maxfd ≤ 2 ^ 30)
    (minfd : Int) (d : Nat) (hd : LeastUnused u minfd d)
    (hno : lim.maxfd ≤ d ∨ ¬ lim.Admits t d) : fdalloc lim t minfd = some (.error .EMFILE, t) := by
  rcases h.firstFree minfd with ⟨d', hd', hres⟩
  rw [hd'.unique hd] at hres
  rw [fdalloc]
  dsimp only
  rw [hres]
  by_cases hmax : lim.maxfd ≤ d
  · rw [if_pos hmax]
  rw [if_neg hmax]
  rcases hno with hle | hadm
  · exact absurd hle hmax
  rw [Limits.Admits, Classical.not_imp, Bool.not_eq_false] at hadm
  have halloc : umin (toInt ((d : Int) * 2)) lim.maxfd = min (2 * (d : Int)) lim.maxfd := by
    rw [toInt_of_lt _ (by omega) (by omega),
      umin_eq _ _ (by omega) (by omega) (by omega) (by omega), Int.mul_comm]
  rw [if_pos hadm.1, halloc, if_pos hadm.2]

/-- An allocation either returns the lowest free number or changes nothing. -/
theorem fdalloc_cases (hbound : lim.maxfd ≤ 2 ^ 30)
    (minfd : Int) : fdalloc lim t minfd = some (.error .EMFILE, t) ∨
      ∃ (d : Nat) (t' : Filedesc), LeastUnused u minfd d ∧
        fdalloc lim t minfd = some (.ok (d : Int), t') ∧ TableOk t' (update u d .reserved) := by
  rcases h.firstFree minfd with ⟨d, hd, -⟩
  by_cases hno : lim.maxfd ≤ d ∨ ¬ lim.Admits t d
  · exact .inl (fdalloc_refused h lim hbound minfd d hd hno)
  rw [not_or, not_not] at hno
  rcases fdalloc_granted h lim hbound minfd d hd (by omega) hno.2 with ⟨t', hres, hok⟩
  exact .inr ⟨d, t', hd, hres, hok⟩

end

/-- The highest descriptor of the hint is inside the table. -/
theorem TableOk.lastfile_lt (h : TableOk t u) : t.lastfile < t.ofiles.length := by
  rcases h.last with ⟨hr, -⟩ | ⟨k, hr, hk, -⟩
  · omega
  · have := h.lt_length k ((h.used k).mp hk)
    omega

/-- A descriptor is open exactly when the ledger says so. -/
theorem TableOk.fgetLocked (h : TableOk t u) (fd : Nat) : fgetLocked t fd = (u fd).file? := by
  have hlast := h.lastfile_lt
  rw [Fd.fgetLocked]
  split
  case isTrue hout =>
    have hfree : u fd = .free := by
      rw [← h.bit_false]
      rcases h.last with ⟨-, hnone⟩ | ⟨k, hr, -, habove⟩
      · exact hnone fd
      · exact habove fd (by omega)
    rw [hfree]
    rfl
  case isFalse hin => exact h.files fd (by omega)

theorem Use.eq_opened {v : Use} {fp : File} (h : v.file? = some fp) : v = .opened fp := by
  cases v with
  | free | reserved => cases h
  | opened fp' => exact congrArg Use.opened (Option.some.inj h)

/-- The copy of an entry opens the descriptor it is copied to. -/
theorem TableOk.dupEntry (h : TableOk t u) (cloexec : Bool) (old new : Nat) (fp : File)
    (hne : old ≠ new) (hold : u old = .opened fp) (hnew : u new ≠ .free) :
    ∃ t', dupEntry t cloexec old new = some (.ok (new : Int), t') ∧
      TableOk t' (update u new (.opened fp)) := by
  have hused : u old ≠ .free := fun he => nomatch he.symm.trans hold
  have hfile : (t.entry old).file = some fp := by
    rw [h.files old (h.lt_length old hused), hold]
    rfl
  rw [Fd.dupEntry, if_pos (by omega)]
  refine ⟨_, rfl, ?_⟩
  have hset := h.setEntry new hnew { t.entry old with flags :=
    if cloexec then (t.entry old).flags ||| ufExclose else (t.entry old).flags &&& ~~~ufExclose }
  dsimp only at hset
  rw [hfile] at hset ⊢
  exact hset

/-- Making room for a fixed descriptor. -/
theorem TableOk.dupGrow (h : TableOk t u) (lim : Limits) (hbound : lim.maxfd ≤ 2 ^ 30) (new : Nat)
    (hmax : (new : Int) < lim.maxfd) : (∃ e, dupGrow lim t new = .error e) ∨
      ∃ t', dupGrow lim t new = .ok t' ∧ TableOk t' u ∧ new < t'.ofiles.length := by
  have hnf := h.nfiles_eq
  have hint : toInt ((new : Int) + 1) = (new + 1 : Nat) := by
    rw [toInt_of_lt _ (by omega) (by omega)]
    rfl
  rw [Fd.dupGrow, hint]
  split
  case isTrue hout =>
    split
    case isTrue => exact .inl ⟨_, rfl⟩
    case isFalse =>
      rcases h.fdgrowtableExp (new + 1) (by omega) (by omega) with ⟨hok, hroom⟩
      exact .inr ⟨_, rfl, hok, hroom⟩
  case isFalse hin => exact .inr ⟨t, rfl, h, by omega⟩

/-- What a call leaves: an error and the table it found, or a descriptor that
    now has the use given. -/
def Leaves (t : Filedesc) (u : Nat → Use) (v : Use) : Option (Except Errno Int × Filedesc) → Prop
  | none => False
  | some (.error _, t') => t' = t
  | some (.ok fd, t') => ∃ d : Nat, fd = d ∧ TableOk t' (update u d v)

section

variable (h : TableOk t u) (lim : Limits) (hbound : lim.maxfd ≤ 2 ^ 30)
include h lim hbound

theorem TableOk.dupFixed (cloexec : Bool) (old new : Nat) (fp : File) (hne : old ≠ new) (hold : u old = .opened fp)
    (hmax : (new : Int) < lim.maxfd) :
    Leaves t u (.opened fp) (dupFixed lim t cloexec old new) := by
  rw [Fd.dupFixed]
  rcases h.dupGrow lim hbound new hmax with ⟨e, hgrow⟩ | ⟨t', hgrow, hok, hroom⟩
  · rw [hgrow]
    exact rfl
  rw [hgrow]
  dsimp only
  rw [hok.fdisused new hroom]
  cases hbit : WordMap.bit t'.map new with
  | true =>
    rcases hok.dupEntry cloexec old new fp hne hold ((hok.used new).mp hbit) with
      ⟨t'', hdup, hok'⟩
    dsimp only
    rw [hdup]
    exact ⟨new, rfl, hok'⟩
  | false =>
    rcases hok.fdused new hroom ((hok.bit_false new).mp hbit) with ⟨t'', hused, hok', -⟩
    have hnew : update u new .reserved new ≠ .free := by simp
    rcases hok'.dupEntry cloexec old new fp hne
      (by rw [update_of_ne hne, hold]) hnew with ⟨t₃, hdup, hok₃⟩
    dsimp only
    rw [hused, Option.bind_some, hdup]
    rw [update_idem] at hok₃
    exact ⟨new, rfl, hok₃⟩

theorem TableOk.dupSwitch (mode : DupMode) (cloexec : Bool) (old new : Nat) (fp : File)
    (hne : mode = .fixed ∨ mode = .mustreplace → old ≠ new) (hold : u old = .opened fp)
    (hmax : (new : Int) < lim.maxfd) :
    Leaves t u (.opened fp) (dupSwitch lim t mode cloexec old new) := by
  -- Both modes that allocate do the same.
  have halloc : ∀ m, m = DupMode.normal ∨ m = DupMode.fcntl →
      Leaves t u (.opened fp) (Fd.dupSwitch lim t m cloexec old new) := by
    intro m hm
    have heq : Fd.dupSwitch lim t m cloexec old new = match fdalloc lim t new with
        | none => none
        | some (.error e, fdp) => some (.error e, fdp)
        | some (.ok new, fdp) => Fd.dupEntry fdp cloexec old new := by
      rcases hm with rfl | rfl
      · rfl
      · rfl
    rw [heq]
    rcases fdalloc_cases h lim hbound new with hno | ⟨d, t', hd, hres, hok⟩
    · rw [hno]
      exact rfl
    rw [hres]
    have hod : old ≠ d := by
      intro he
      subst he
      exact nomatch hd.2.1.symm.trans hold
    rcases hok.dupEntry cloexec old d fp hod (by rw [update_of_ne hod, hold])
      (by simp) with ⟨t'', hdup, hok'⟩
    rw [update_idem] at hok'
    dsimp only
    rw [hdup]
    exact ⟨d, rfl, hok'⟩
  cases mode with
  | normal => exact halloc _ (.inl rfl)
  | fcntl => exact halloc _ (.inr rfl)
  | fixed => exact h.dupFixed lim hbound cloexec old new fp (hne (.inl rfl)) hold hmax
  | mustreplace =>
    simp only [Fd.dupSwitch]
    rw [h.fgetLocked new]
    cases hfile : (u new).file? with
    | none => exact rfl
    | some fp' =>
      have hnew : u new ≠ .free := by
        rw [Use.eq_opened hfile]
        exact fun he => nomatch he
      rcases h.dupEntry cloexec old new fp (hne (.inr rfl)) hold hnew with ⟨t', hdup, hok⟩
      dsimp only
      rw [hdup]
      exact ⟨new, rfl, hok⟩

/-- Duplicating a descriptor: an error changes nothing, and a success leaves the
    new descriptor open on the file of the old one. -/
theorem TableOk.kernDup (mode : DupMode) (cloexec : Bool) (old new : Int) :
    Leaves t u (u old.toNat) (kernDup lim t mode cloexec old new) := by
  rw [Fd.kernDup]
  dsimp only
  by_cases hold0 : old < 0
  · rw [if_pos hold0]
    exact rfl
  rw [if_neg hold0]
  by_cases hnew0 : new < 0
  · rw [if_pos hnew0]
    exact rfl
  rw [if_neg hnew0]
  by_cases hmax : new ≥ lim.maxfd
  · rw [if_pos hmax]
    exact rfl
  rw [if_neg hmax]
  -- From here on both are numbers of the ledger.
  lift old to Nat using by omega
  lift new to Nat using by omega
  rw [Int.toNat_natCast, h.fgetLocked old]
  cases hfile : (u old).file? with
  | none =>
    rw [if_pos rfl]
    exact rfl
  | some fp =>
    have hopen := Use.eq_opened hfile
    rw [if_neg nofun]
    split
    case isTrue heq =>
      have hon : old = new := by omega
      subst hon
      have hused : u old ≠ .free := by
        rw [hopen]
        exact fun he => nomatch he
      refine ⟨old, rfl, ?_⟩
      split
      case isTrue =>
        have hset := h.setEntry old hused { t.entry old with
          flags := (t.entry old).flags ||| ufExclose }
        rwa [show Use.ofFile (t.entry old).file = u old by
          rw [h.files old (h.lt_length old hused), hfile, hopen]; rfl] at hset
      case isFalse =>
        rw [update_eq_self]
        exact h
    case isFalse hneq =>
      rw [hopen]
      refine h.dupSwitch lim hbound mode cloexec old new fp (fun hm heq => ?_) hopen (by omega)
      exact hneq ⟨hm, by rw [heq]⟩

/-- Installing a file allocates the lowest free descriptor for it. -/
theorem TableOk.finstall (fp : File)
    (cloexec : Bool) (fcaps : Filecaps) :
    Leaves t u (.opened fp) (finstall lim t fp cloexec fcaps) := by
  rw [Fd.finstall]
  rcases fdalloc_cases h lim hbound 0 with hno | ⟨d, t', hd, hres, hok⟩
  · rw [hno]
    exact rfl
  rw [hres]
  have hset := hok.setEntry d (by simp)
    { file := some fp, caps := fcaps, flags := if cloexec then ufExclose else 0#8 }
  rw [update_idem] at hset
  exact ⟨d, rfl, hset⟩

end

end FreeBSDKern.Fd
