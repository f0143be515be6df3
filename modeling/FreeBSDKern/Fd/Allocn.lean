import FreeBSDKern.Fd.Copy

/-!
# Allocating Several Descriptors

`fdallocn` calls `fdalloc` as often as descriptors are asked for, and when one
call fails it gives back those it has. Giving back undoes the marks and both
hints, though the table may have grown.

The bound it is called with goes no further: `fdalloc` is called with 0. So what
comes out are the lowest free descriptors of all, and they are the ones asked for
exactly when none is free below the bound.

Whether the calls succeed depends on the size of the table, which may grow more
than once on the way.

## Main definitions

* `fdallocn`: The source's function.
* `LowestUnused`: The lowest free numbers of a ledger, from a bound on.
* `Room`: The limits let a table take some descriptors.
* `AllOrNothing`: What a caller may expect.

## Theorems

* `fdallocn_all_or_nothing_iff`: When the expectation is met.
-/

namespace FreeBSDKern.Fd

open Lib Function

/-- The first loop of `fdallocn`: the descriptors it has, the last one first, and
    whether these are all. -/
def allocnLoop (lim : Limits) : Nat → Filedesc → List Int → Option (Bool × List Int × Filedesc)
  | 0, fdp, fds => some (true, fds, fdp)
  | n + 1, fdp, fds =>
    match fdalloc lim fdp 0 with
    | none => none
    | some (.error _, fdp) => some (false, fds, fdp)
    | some (.ok fd, fdp) => allocnLoop lim n fdp (fd :: fds)

/-- `fdallocn`, which makes no use of its `minfd`. -/
def fdallocn (lim : Limits) (fdp : Filedesc) (_minfd n : Int) :
    Option (Except Errno (List Int) × Filedesc) :=
  match allocnLoop lim n.toNat fdp [] with
  | none => none
  | some (true, fds, fdp) => some (.ok fds.reverse, fdp)
  | some (false, fds, fdp) => (fds.foldlM fdunused fdp).map (fun fdp => (.error .EMFILE, fdp))

variable {t : Filedesc} {u : Nat → Use}

/-- Some descriptors are reserved. -/
def reserve (u : Nat → Use) (ds : List Nat) : Nat → Use :=
  fun i => if i ∈ ds then .reserved else u i

/-- The lowest free numbers of a ledger from a bound on. -/
structure LowestUnused (u : Nat → Use) (minfd : Int) (ds : List Nat) : Prop where
  ascending : ds.Pairwise (· < ·)
  above : ∀ d ∈ ds, minfd ≤ d
  free : ∀ d ∈ ds, u d = .free
  lowest : ∀ d ∈ ds, ∀ i : Nat, minfd ≤ i → i < d → u i = .free → i ∈ ds

/-- The size of a table that has been grown. -/
def grownSize (nfiles nfd : Int) : Int :=
  let nfd1 := toInt (nfiles * 2)
  let nnfiles := toInt (ndslots (toULong (if nfd1 < nfd then nfd else nfd1)) * ndentries)
  if nnfiles ≤ nfiles then nfiles else nnfiles

/-- The limits let a table of some size take these descriptors, one by one. -/
def Room (lim : Limits) : Int → List Nat → Prop
  | _, [] => True
  | size, d :: ds =>
    (d : Int) < lim.maxfd ∧ (size ≤ d → lim.refuses (min (2 * (d : Int)) lim.maxfd) = false) ∧
      Room lim (if size ≤ d then grownSize size (min (2 * (d : Int)) lim.maxfd) else size) ds

/-- Either the lowest free descriptors from `minfd` on are reserved and returned, or
    the table has the descriptors and the hints it had. -/
def AllOrNothing (lim : Limits) (t : Filedesc) (u : Nat → Use) (minfd n : Int) : Prop :=
  match fdallocn lim t minfd n with
  | none => False
  | some (.ok fds, t') => ∃ ds : List Nat, fds = ds.map Int.ofNat ∧ ds.length = n.toNat ∧
      LowestUnused u minfd ds ∧ TableOk t' (reserve u ds)
  | some (.error e, t') => e = .EMFILE ∧ TableOk t' u ∧
      (∀ i, WordMap.bit t'.map i = WordMap.bit t.map i) ∧ t'.lastfile = t.lastfile ∧
      t'.freefile = t.freefile

/-! ## The lowest free numbers -/

theorem LowestUnused.snoc {minfd : Int} {ds : List Nat} {d : Nat} (h : LowestUnused u minfd ds)
    (hd : LeastUnused (reserve u ds) minfd d) : LowestUnused u minfd (ds ++ [d]) := by
  rcases hd with ⟨hge, hfree, hleast⟩
  have hnot : d ∉ ds := by
    intro hin
    rw [reserve, if_pos hin] at hfree
    cases hfree
  rw [reserve, if_neg hnot] at hfree
  have hlt : ∀ e ∈ ds, e < d := by
    intro e he
    rcases Nat.lt_trichotomy e d with hlt | heq | hgt
    · exact hlt
    · exact absurd (heq ▸ he) hnot
    · exact absurd (h.lowest e he d hge hgt hfree) hnot
  refine ⟨?_, fun e he => ?_, fun e he => ?_, fun e he i hi hie hfr => ?_⟩
  · rw [List.pairwise_append]
    refine ⟨h.ascending, List.pairwise_singleton _ _, fun e he e' he' => ?_⟩
    rw [List.mem_singleton.mp he']
    exact hlt e he
  · rcases List.mem_append.mp he with he | he
    · exact h.above e he
    · rw [List.mem_singleton.mp he]
      exact hge
  · rcases List.mem_append.mp he with he | he
    · exact h.free e he
    · rw [List.mem_singleton.mp he]
      exact hfree
  rcases List.mem_append.mp he with he | he
  · exact List.mem_append_left _ (h.lowest e he i hi hie hfr)
  -- What is free below the new number has been reserved before.
  rw [List.mem_singleton.mp he] at hie
  by_contra hout
  rw [List.mem_append, not_or] at hout
  refine hleast i hi hie ?_
  rw [reserve, if_neg hout.1]
  exact hfr

theorem LowestUnused.nil (u : Nat → Use) (minfd : Int) : LowestUnused u minfd [] :=
  ⟨List.Pairwise.nil, fun _ h => absurd h List.not_mem_nil, fun _ h => absurd h List.not_mem_nil,
    fun _ h => absurd h List.not_mem_nil⟩

theorem LowestUnused.nodup {minfd : Int} {ds : List Nat} (h : LowestUnused u minfd ds) : ds.Nodup :=
  h.ascending.imp (fun hlt => ne_of_lt hlt)

/-- What follows some of the lowest free numbers is the lowest of the rest. -/
theorem LowestUnused.next {minfd : Int} {ds es : List Nat} {d : Nat}
    (h : LowestUnused u minfd (ds ++ d :: es)) : LeastUnused (reserve u ds) minfd d := by
  have hin : d ∈ ds ++ d :: es := List.mem_append_cons_self
  have hasc := List.pairwise_append.mp h.ascending
  have hnot : d ∉ ds := fun hd => lt_irrefl d (hasc.2.2 d hd d List.mem_cons_self)
  refine ⟨h.above d hin, ?_, fun i hi hid hfree => ?_⟩
  · rw [reserve, if_neg hnot]
    exact h.free d hin
  by_cases hids : i ∈ ds
  · rw [reserve, if_pos hids] at hfree
    cases hfree
  rw [reserve, if_neg hids] at hfree
  rcases List.mem_append.mp (h.lowest d hin i hi hid hfree) with hin' | hin'
  · exact hids hin'
  rcases List.mem_cons.mp hin' with heq | hin'
  · omega
  · have := (List.pairwise_cons.mp hasc.2.1).1 i hin'
    omega

theorem reserve_snoc (u : Nat → Use) (ds : List Nat) (d : Nat) :
    reserve u (ds ++ [d]) = update (reserve u ds) d .reserved := by
  ext i
  unfold reserve
  by_cases hi : i = d
  · rw [hi, update_self, if_pos (List.mem_append_cons_self)]
  have hiff : i ∈ ds ++ [d] ↔ i ∈ ds := by
    rw [List.mem_append, List.mem_singleton, or_iff_left hi]
  rw [update_of_ne hi, if_congr hiff rfl rfl]

/-! ## One call of fdalloc -/

theorem fdgrowtable_nfiles (t : Filedesc) (nfd : Int) : (fdgrowtable t nfd).nfiles =
      if toInt (ndslots (toULong nfd) * ndentries) ≤ t.nfiles then t.nfiles
      else toInt (ndslots (toULong nfd) * ndentries) := by
  unfold fdgrowtable
  dsimp only
  by_cases hle : toInt (ndslots (toULong nfd) * ndentries) ≤ t.nfiles
  · rw [if_pos hle, if_pos hle]
  · rw [if_neg hle, if_neg hle]

theorem fdgrowtableExp_nfiles (t : Filedesc) (nfd : Int) :
    (fdgrowtableExp t nfd).nfiles = grownSize t.nfiles nfd :=
  fdgrowtable_nfiles t _

theorem fdgrowtable_freefile (t : Filedesc) (nfd : Int) :
    (fdgrowtable t nfd).freefile = t.freefile := by
  unfold fdgrowtable
  dsimp only
  by_cases hle : toInt (ndslots (toULong nfd) * ndentries) ≤ t.nfiles
  · rw [if_pos hle]
  · rw [if_neg hle]

/-- A number is marked in a table that has room for it. -/
theorem fdallocMark_shape {lim : Limits} {t' : Filedesc} {d fd : Int}
    (h : fdallocMark lim t fd = some (.ok d, t')) : d = fd ∧ t'.nfiles = t.nfiles ∧
      t'.freefile = if fd = t.freefile then fdFirstFree t'.map fd t'.nfiles else t.freefile := by
  unfold fdallocMark at h
  split at h
  case isFalse => cases h
  case isTrue =>
  unfold fdused fdusedInit at h
  split at h
  case h_2 => cases h
  case h_1 =>
    rw [Option.map_some, Option.map_some, Option.some.injEq, Prod.mk.injEq] at h
    rcases h with ⟨hd, rfl⟩
    exact ⟨(Except.ok.inj hd).symm, rfl, rfl⟩

/-- What a successful call does to the size and to the hint for free numbers. -/
theorem fdalloc_shape {lim : Limits} {t t' : Filedesc} {d : Int}
    (h : fdalloc lim t 0 = some (.ok d, t')) :
    t'.nfiles = (if t.nfiles ≤ d then grownSize t.nfiles (umin (toInt (d * 2)) lim.maxfd)
      else t.nfiles) ∧
      t'.freefile = if d = t.freefile then fdFirstFree t'.map d t'.nfiles else t.freefile := by
  unfold fdalloc at h
  dsimp only at h
  generalize fdFirstFree t.map (if t.freefile > 0 then t.freefile else 0) t.nfiles = fd at h
  split at h
  case isTrue => cases h
  case isFalse =>
  split at h
  case isTrue hout =>
    split at h
    case isTrue => cases h
    case isFalse =>
    rcases fdallocMark_shape h with ⟨rfl, hsize, hfree⟩
    rw [fdgrowtableExp_nfiles] at hsize
    rw [fdgrowtableExp, fdgrowtable_freefile] at hfree
    exact ⟨hsize.trans (if_pos hout).symm, hfree⟩
  case isFalse hin =>
    rcases fdallocMark_shape h with ⟨rfl, hsize, hfree⟩
    exact ⟨hsize.trans (if_neg hin).symm, hfree⟩

/-- One call: nothing happens, or the lowest free number is reserved. The limits say
    which, and the hint for free numbers moves up if it was this number. -/
theorem fdalloc_step (h : TableOk t u) (lim : Limits) (hbound : lim.maxfd ≤ 2 ^ 30) :
    ∃ d, LeastUnused u 0 d ∧ ((¬ ((d : Int) < lim.maxfd ∧ lim.Admits t d) ∧
          fdalloc lim t 0 = some (.error .EMFILE, t)) ∨
        (((d : Int) < lim.maxfd ∧ lim.Admits t d) ∧
          ∃ t', fdalloc lim t 0 = some (.ok (d : Int), t') ∧ TableOk t' (update u d .reserved) ∧
            t'.nfiles = (if t.nfiles ≤ d then grownSize t.nfiles (min (2 * (d : Int)) lim.maxfd)
              else t.nfiles) ∧
            ((d : Int) = t.freefile → (d : Int) < t'.freefile) ∧
            ((d : Int) ≠ t.freefile → t'.freefile = t.freefile))) := by
  rcases h.firstFree 0 with ⟨d, hd, -⟩
  refine ⟨d, hd, ?_⟩
  by_cases hgrant : (d : Int) < lim.maxfd ∧ lim.Admits t d
  · rcases fdalloc_granted h lim hbound 0 d hd hgrant.1 hgrant.2 with ⟨t', hok, htab⟩
    rcases fdalloc_shape hok with ⟨hsize, hfree⟩
    refine Or.inr ⟨hgrant, t', hok, htab, ?_, fun heq => ?_, fun hne => ?_⟩
    · have hmin : umin (toInt ((d : Int) * 2)) lim.maxfd = min (2 * (d : Int)) lim.maxfd := by
        rw [toInt_of_lt _ (by omega) (by omega),
          umin_eq _ _ (by omega) (by omega) (by omega) (by omega), Int.mul_comm]
      rw [hsize, hmin]
    · -- The search goes on behind the number just marked.
      rw [if_pos heq, htab.nfiles_eq] at hfree
      rcases fdFirstFree_spec t'.map d t'.ofiles.length htab.size_lt htab.bit_end with
        ⟨r, hres, hle, hclear, -⟩
      have hmarked : WordMap.bit t'.map d = true := by
        rw [htab.used d, update_self]
        exact nofun
      have hne : r ≠ d := by
        intro hrd
        rw [hrd, hmarked] at hclear
        cases hclear
      rw [hfree, hres]
      omega
    · rw [hfree, if_neg hne]
  refine Or.inl ⟨hgrant, fdalloc_refused h lim hbound 0 d hd ?_⟩
  rw [not_and_or, not_lt] at hgrant
  exact hgrant

/-! ## The loops -/

/-- Where the hint for free numbers was, or beyond if that number has been taken. -/
def HintAfter (hint : Int) (ds : List Nat) (t : Filedesc) : Prop :=
  ((∀ d ∈ ds, (d : Int) ≠ hint) ∧ t.freefile = hint) ∨
    ((∃ d ∈ ds, (d : Int) = hint) ∧ hint < t.freefile)

/-- The calls reserve the lowest free numbers, all of them if the limits let them. -/
theorem allocnLoop_spec (lim : Limits) (hbound : lim.maxfd ≤ 2 ^ 30) (hint : Int) (n : Nat) :
    ∀ (t : Filedesc) (ds : List Nat), TableOk t (reserve u ds) → LowestUnused u 0 ds →
      HintAfter hint ds t → ∃ b es t', allocnLoop lim n t (ds.map Int.ofNat).reverse =
          some (b, ((ds ++ es).map Int.ofNat).reverse, t') ∧
        TableOk t' (reserve u (ds ++ es)) ∧ LowestUnused u 0 (ds ++ es) ∧
        HintAfter hint (ds ++ es) t' ∧ (b = true → es.length = n) ∧
        ∀ fs, LowestUnused u 0 (ds ++ fs) → fs.length = n → (b = true ↔ Room lim t.nfiles fs) := by
  induction n with
  | zero =>
    intro t ds htab hds hhint
    refine ⟨true, [], t, ?_, ?_, ?_, ?_, fun _ => rfl, fun fs _ hlen => ?_⟩
    · rw [List.append_nil]
      rfl
    · rwa [List.append_nil]
    · rwa [List.append_nil]
    · rwa [List.append_nil]
    · rw [List.eq_nil_of_length_eq_zero hlen]
      exact ⟨fun _ => trivial, fun _ => rfl⟩
  | succ n ih =>
    intro t ds htab hds hhint
    rcases fdalloc_step htab lim hbound with ⟨d, hd, ⟨hno, hres⟩ | ⟨hyes, t₁, hres, htab₁, hsize, hat,
      hoff⟩⟩
    · refine ⟨false, [], t, ?_, ?_, ?_, ?_, nofun, fun fs hfs hlen => ?_⟩
      · rw [List.append_nil]
        unfold allocnLoop
        rw [hres]
      · rwa [List.append_nil]
      · rwa [List.append_nil]
      · rwa [List.append_nil]
      cases fs with
      | nil => cases hlen
      | cons e fs =>
        rw [hfs.next.unique hd]
        exact ⟨nofun, fun hroom => absurd ⟨hroom.1, hroom.2.1⟩ hno⟩
    rw [← reserve_snoc] at htab₁
    have hhint₁ : HintAfter hint (ds ++ [d]) t₁ := by
      rcases hhint with ⟨hnone, heq⟩ | ⟨hsome, hlt⟩
      · by_cases hdh : (d : Int) = t.freefile
        · refine Or.inr ⟨⟨d, List.mem_append_cons_self, hdh.trans heq⟩, ?_⟩
          rw [← heq, ← hdh]
          exact hat hdh
        refine Or.inl ⟨fun e he => ?_, (hoff hdh).trans heq⟩
        rcases List.mem_append.mp he with he | he
        · exact hnone e he
        · rw [List.mem_singleton.mp he, ← heq]
          exact hdh
      rcases hsome with ⟨e, he, hehint⟩
      refine Or.inr ⟨⟨e, List.mem_append_left _ he, hehint⟩, ?_⟩
      by_cases hdh : (d : Int) = t.freefile
      · have := hat hdh
        omega
      · rw [hoff hdh]
        exact hlt
    rcases ih t₁ (ds ++ [d]) htab₁ (hds.snoc hd) hhint₁ with
      ⟨b, es, t', hrun, htab', hes, hhint', hall, hroom⟩
    have happ : ∀ l : List Nat, ds ++ [d] ++ l = ds ++ d :: l := fun l =>
      List.append_assoc ds [d] l
    rw [happ] at hrun htab' hes hhint'
    refine ⟨b, d :: es, t', ?_, htab', hes, hhint', fun hb => ?_, fun fs hfs hlen => ?_⟩
    · rw [List.map_append, List.reverse_append] at hrun
      unfold allocnLoop
      rw [hres]
      exact hrun
    · rw [List.length_cons, hall hb]
    cases fs with
    | nil => cases hlen
    | cons e fs =>
      have hed := hfs.next.unique hd
      rw [hed] at hfs ⊢
      rw [← happ] at hfs
      have hrest := hroom fs hfs (Nat.succ.inj hlen)
      rw [hsize] at hrest
      exact hrest.trans ⟨fun hr => ⟨hyes.1, hyes.2, hr⟩, fun hr => hr.2.2⟩

/-- Giving back what has been reserved restores the ledger and the hint. -/
theorem fdunused_loop (hint : Int) (hbelow : ∀ i : Nat, (i : Int) < hint → u i ≠ .free) :
    ∀ (ds : List Nat) (t : Filedesc), TableOk t (reserve u ds) → LowestUnused u 0 ds →
      HintAfter hint ds t →
      ∃ t', ((ds.map Int.ofNat).reverse).foldlM fdunused t = some t' ∧ TableOk t' u ∧
        t'.freefile = hint := by
  intro ds
  induction ds using List.reverseRecOn with
  | nil =>
    intro t htab _ hhint
    rcases hhint with ⟨-, heq⟩ | ⟨⟨d, hd, -⟩, -⟩
    · exact ⟨t, rfl, htab, heq⟩
    · exact absurd hd List.not_mem_nil
  | append_singleton ds d ih =>
    intro t htab hds hhint
    have hnot : d ∉ ds := by
      have hnodup := hds.nodup
      rw [List.nodup_append'] at hnodup
      exact fun hin => hnodup.2.2 hin List.mem_cons_self
    have hdfree := hds.free d (List.mem_append_cons_self)
    have hge : hint ≤ d := by
      by_contra hlt
      exact hbelow d (by omega) hdfree
    rcases htab.fdunused d (by rw [reserve, if_pos (List.mem_append_cons_self)])
      with ⟨t₁, hres, htab₁, -⟩
    have hback : update (reserve u (ds ++ [d])) d .free = reserve u ds := by
      rw [reserve_snoc, update_idem]
      refine Function.update_eq_self_iff.mpr ?_
      rw [reserve, if_neg hnot]
      exact hdfree.symm
    rw [hback] at htab₁
    have hfree : t₁.freefile = if (d : Int) < t.freefile then (d : Int) else t.freefile := by
      unfold fdunused at hres
      split at hres
      case isTrue => rw [← Option.some.inj hres]
      case isFalse => cases hres
    have hsub : LowestUnused u 0 ds := by
      refine ⟨(List.pairwise_append.mp hds.ascending).1, fun e he =>
        hds.above e (List.mem_append_left _ he), fun e he =>
        hds.free e (List.mem_append_left _ he), fun e he i hi hie hfr => ?_⟩
      have hin := hds.lowest e (List.mem_append_left _ he) i hi hie hfr
      rcases List.mem_append.mp hin with hin | hin
      · exact hin
      -- The last of them is above all others.
      have hed := (List.pairwise_append.mp hds.ascending).2.2 e he d List.mem_cons_self
      rw [List.mem_singleton.mp hin] at hie
      omega
    have hhint₁ : HintAfter hint ds t₁ := by
      rcases hhint with ⟨hnone, heq⟩ | ⟨hsome, hlt⟩
      · refine Or.inl ⟨fun e he => hnone e (List.mem_append_left _ he), ?_⟩
        rw [hfree, if_neg (by omega)]
        exact heq
      by_cases hdh : (d : Int) = hint
      · refine Or.inl ⟨fun e he heq => ?_, ?_⟩
        · exact hnot (Int.ofNat.inj (heq.trans hdh.symm) ▸ he)
        · rw [hfree, if_pos (by omega)]
          exact hdh
      rcases hsome with ⟨e, he, hehint⟩
      rcases List.mem_append.mp he with he | he
      · refine Or.inr ⟨⟨e, he, hehint⟩, ?_⟩
        rw [hfree]
        split
        all_goals omega
      · rw [List.mem_singleton.mp he] at hehint
        exact absurd hehint hdh
    rcases ih t₁ htab₁ hsub hhint₁ with ⟨t', hrun, htab', hfree'⟩
    refine ⟨t', ?_, htab', hfree'⟩
    rw [List.map_append, List.reverse_append]
    simp only [List.map_cons, List.map_nil, List.reverse_singleton, List.singleton_append,
      List.foldlM_cons]
    change (fdunused t (d : Int)).bind _ = _
    rw [hres]
    exact hrun

/-! ## All or nothing -/

/-- The hint for the highest number is told by the ledger. -/
theorem TableOk.lastfile_eq {t' : Filedesc} (h : TableOk t u) (h' : TableOk t' u)
    (hbit : ∀ i, WordMap.bit t'.map i = WordMap.bit t.map i) : t'.lastfile = t.lastfile := by
  have hlast := h'.last.congr (fun i => (hbit i).symm)
  rcases h.last with ⟨hr, hnone⟩ | ⟨k, hr, hk, habove⟩
  · rcases hlast with ⟨hr', -⟩ | ⟨k', hr', hk', -⟩
    · exact hr'.trans hr.symm
    · rw [hnone k'] at hk'
      cases hk'
  rcases hlast with ⟨-, hnone⟩ | ⟨k', hr', hk', habove'⟩
  · rw [hnone k] at hk
    cases hk
  rcases Nat.lt_trichotomy k k' with hlt | heq | hgt
  · rw [habove k' hlt] at hk'
    cases hk'
  · rw [hr, hr', heq]
  · rw [habove' k hgt] at hk
    cases hk

/-- `fdallocn` does what its caller may expect exactly when it is asked for nothing,
    when no number below the bound is free, or when the limits refuse the lowest
    free numbers of all. -/
theorem fdallocn_all_or_nothing_iff (h : TableOk t u) (lim : Limits) (hbound : lim.maxfd ≤ 2 ^ 30)
    (minfd n : Int) : AllOrNothing lim t u minfd n ↔
      n ≤ 0 ∨ (∀ i : Nat, (i : Int) < minfd → u i ≠ .free) ∨
        ∀ ds, LowestUnused u 0 ds → ds.length = n.toNat → ¬ Room lim t.nfiles ds := by
  have htab₀ : TableOk t (reserve u []) := h
  rcases allocnLoop_spec lim hbound t.freefile n.toNat t [] htab₀ (LowestUnused.nil u 0)
    (Or.inl ⟨fun _ hd => absurd hd List.not_mem_nil, rfl⟩) with
    ⟨b, es, t', hrun, htab, hes, hhint, hall, hroom⟩
  rw [List.nil_append] at hrun htab hes hhint
  unfold AllOrNothing fdallocn
  simp only [List.map_nil, List.reverse_nil] at hrun
  rw [hrun]
  cases b with
  | false =>
    rcases fdunused_loop t.freefile h.below_free es t' htab hes hhint with
      ⟨t₁, hundo, htab₁, hfree⟩
    have hbit : ∀ i, WordMap.bit t₁.map i = WordMap.bit t.map i := fun i =>
      Bool.eq_iff_iff.mpr ((htab₁.used i).trans (h.used i).symm)
    dsimp only
    rw [hundo]
    refine ⟨fun _ => Or.inr (Or.inr fun ds hds hlen hr => ?_), fun _ => ?_⟩
    · exact Bool.false_ne_true ((hroom ds hds hlen).mpr hr)
    · exact ⟨rfl, htab₁, hbit, h.lastfile_eq htab₁ hbit, hfree⟩
  | true =>
    have hlen := hall rfl
    dsimp only
    rw [List.reverse_reverse]
    constructor
    · intro hmeets
      rcases hmeets with ⟨ds, hds, hdlen, hlow, -⟩
      have hde : es = ds := List.map_injective_iff.mpr (fun _ _ => Int.ofNat.inj) hds
      rw [← hde] at hlow
      by_cases hn : n ≤ 0
      · exact Or.inl hn
      refine Or.inr (Or.inl fun i hi hfr => ?_)
      -- Such a number would be the first of those returned.
      cases hes' : es with
      | nil =>
        rw [hes', List.length_nil] at hlen
        omega
      | cons d es =>
        have hin : d ∈ d :: es := List.mem_cons_self
        rw [hes'] at hes hlow
        have hd := hlow.above d hin
        have hmem := hes.lowest d hin i (Int.natCast_nonneg i) (by omega) hfr
        have := hlow.above i hmem
        omega
    intro hcond
    refine ⟨es, rfl, hlen, ?_, htab⟩
    rcases hcond with hn | hnone | hno
    · rw [List.eq_nil_of_length_eq_zero (hlen.trans (by omega))]
      exact LowestUnused.nil u minfd
    · refine ⟨hes.ascending, fun d hd => ?_, hes.free, fun d hd i _ hid hfr => ?_⟩
      · by_contra hlt
        exact hnone d (by omega) (hes.free d hd)
      · exact hes.lowest d hd i (Int.natCast_nonneg i) hid hfr
    · exact absurd ((hroom es hes hlen).mp rfl) (hno es hes hlen)

/-- Three descriptors from the first table, with no bound. -/
theorem fdallocn_from_empty : AllOrNothing ⟨1000, none⟩ fdinit0 (fun _ => .free) 0 3 :=
  (fdallocn_all_or_nothing_iff fdinit0_ok ⟨1000, none⟩ (by decide) 0 3).mpr
    (Or.inr (Or.inl (fun i hi => absurd hi (Int.not_lt.mpr (Int.natCast_nonneg i)))))

/-- Asked for one descriptor from 3 on, it returns descriptor 0 of an empty table. -/
theorem fdallocn_below_bound : TableOk fdinit0 (fun _ => .free) ∧
      (fdallocn ⟨1000, none⟩ fdinit0 3 1).map Prod.fst = some (.ok [0]) ∧
      ¬ AllOrNothing ⟨1000, none⟩ fdinit0 (fun _ => .free) 3 1 := by
  have hrun : (fdallocn ⟨1000, none⟩ fdinit0 3 1).map Prod.fst = some (.ok [0]) := by
    decide
  refine ⟨fdinit0_ok, hrun, fun hmeets => ?_⟩
  rw [Option.map_eq_some_iff] at hrun
  rcases hrun with ⟨⟨r, t'⟩, hres, rfl⟩
  unfold AllOrNothing at hmeets
  rw [hres] at hmeets
  rcases hmeets with ⟨ds, hds, -, hlow, -⟩
  have hin : (0 : Int) ∈ ds.map Int.ofNat := hds ▸ List.mem_cons_self
  rcases List.mem_map.mp hin with ⟨d, hd, hzero⟩
  have := hlow.above d hd
  rw [show (d : Int) = 0 from hzero] at this
  omega

end FreeBSDKern.Fd
