import FreeBSDKern.Reserv.Contig

/-!
# The Operations on Reservations

Each operation that may be called keeps the invariant. What one of them hands out
is a run of pages that were not in use, and the pages in use afterwards are the
same with the run added. Dissolving a reservation asks that it is not fully
populated, which its callers but `vm_reserv_break_all` have from the queue.

## Main definitions

* `PhysOk`: What the physical memory allocator promises.
* `Gives`: A call that may hand out pages.

## Theorems

* `allocPage_gives`, `allocContig_gives`, `reactivatePage_gives`: Handing out.
* `freePage_keeps`, `rename_keeps`, `breakAll_keeps`, `reclaimInactive_keeps`,
  `reclaimContig_keeps`: The other operations.
-/

namespace FreeBSDKern.Reserv

open Lib Function

/-- What the physical memory allocator answers is a run of free pages, aligned as
    it was asked for. -/
def PhysOk (free : Nat → Bool) (phys : Request → Option Nat) : Prop :=
  ∀ req m, phys req = some m → req.alignment.toNat ∣ m * 2 ^ pageShift ∧
    ∀ p, m ≤ p → p < m + req.npages → free p = true

/-- The run of `n` pages from `m` on, if one is handed out, was not in use, and
    everything is in order with it in use. -/
def Gives (s : State) (u : Nat → Bool) (n : Nat) (m : Option Nat) (s' : State) : Prop :=
  (m = none ∧ s' = s) ∨
    ∃ p, m = some p ∧ (∀ q, p ≤ q → q < p + n → u q = false) ∧ Ok s' (useRun u p n) ∧ Live s'

variable {s : State} {u : Nat → Bool}

theorem vmReservIndex_lt (color pindex : BitVec 64) : vmReservIndex color pindex < 512 :=
  Nat.mod_lt _ (by decide)

theorem neighbour_object (s : State) (object : Object) (pindex : BitVec 64) (m : Option Page)
    (r : Nat) (h : neighbour s object pindex m = some r) : (s.rv r).object = some object.id := by
  cases m with
  | none => cases h
  | some m =>
    rw [neighbour] at h
    split at h
    case isTrue hobj =>
      rw [← Option.some.inj h]
      exact hobj.1
    case isFalse => cases h

theorem neighbours_object (s : State) (object : Object) (pindex : BitVec 64)
    (mpred msucc : Option Page) (r : Nat)
    (h : (neighbour s object pindex mpred).or (neighbour s object pindex msucc) = some r) :
    (s.rv r).object ≠ none := by
  have hobj : (s.rv r).object = some object.id := by
    rcases Option.or_eq_some_iff.mp h with hl | ⟨-, hr⟩
    · exact neighbour_object s object pindex mpred r hl
    · exact neighbour_object s object pindex msucc r hr
  rw [hobj]
  exact Option.some_ne_none _

/-- Populating clear positions of an active reservation hands out their pages. -/
theorem populateRange_gives (h : Ok s u) (hlive : Live s) (r i n : Nat)
    (hobj : (s.rv r).object ≠ none) (hn : i + n ≤ 512)
    (hclear : ∀ j, j < n → popmapIsSet (s.rv r).popmap (i + j) = false) :
    ∃ s', populateRange s r i n = some s' ∧ Gives s u n (some (r * 512 + i)) s' := by
  have hunused : ∀ j, j < n → u (r * 512 + (i + j)) = false := by
    intro j hj
    rw [← ((h.each r).pages hobj (i + j) (by omega)).2]
    exact hclear j hj
  rcases h.populateRange r i hobj n hn hunused with ⟨s', hpop, hok, hothers, hobj', hcnt, -⟩
  refine ⟨s', hpop, .inr ⟨_, rfl, fun q hlo hhi => ?_, hok, fun r' hr' => ?_⟩⟩
  · have := hunused (q - (r * 512 + i)) (by omega)
    rw [show r * 512 + (i + (q - (r * 512 + i))) = q by omega] at this
    exact this
  by_cases hne : r' = r
  · subst hne
    have := hlive r' hobj
    rw [hcnt]
    omega
  · rw [hothers r' hne] at hr' ⊢
    exact hlive r' hr'

/-- The pages the allocator gave: off the free lists, not in use and in no
    reservation. -/
theorem Ok.taken (h : Ok s u) (m n : Nat) (hfree : ∀ p, m ≤ p → p < m + n → s.free p = true) :
    Ok { s with free := physTake s.free m n } u ∧ ∀ p, m ≤ p → p < m + n →
      physTake s.free m n p = false ∧ u p = false ∧ (s.rv (p / 512)).object = none :=
  ⟨h.take _ (fun _ hp => ((physTake_eq_true _ _ _ _).mp hp).1), fun p hlo hhi =>
    ⟨physTake_inside _ _ _ _ ⟨hlo, hhi⟩, h.apart p (hfree p hlo hhi),
      h.object_of_free p (hfree p hlo hhi)⟩⟩

theorem level0Size_toNat : level0Size.toNat = 2 ^ 21 := by decide

theorem level0_dvd (m : Nat) (h : 2 ^ 21 ∣ m * 2 ^ pageShift) : m % 512 = 0 := by
  rw [pageShift] at h
  omega

theorem allocPage_gives (h : Ok s u) (hlive : Live s) (object : Object) (pindex : BitVec 64)
    (mpred msucc : Option Page) (phys : Request → Option Nat) (hphys : PhysOk s.free phys) :
    ∃ m s', allocPage s object pindex mpred msucc phys = some (m, s') ∧ Gives s u 1 m s' := by
  have hindex := vmReservIndex_lt object.color pindex
  rw [allocPage]
  dsimp only
  split
  · exact ⟨none, s, rfl, .inl ⟨rfl, rfl⟩⟩
  cases hn : (neighbour s object pindex mpred).or (neighbour s object pindex msucc) with
  | some r =>
    dsimp only
    split
    · exact ⟨none, s, rfl, .inl ⟨rfl, rfl⟩⟩
    case isFalse hset =>
    rw [Bool.not_eq_true] at hset
    rcases populateRange_gives h hlive r (vmReservIndex object.color pindex) 1
      (neighbours_object s object pindex mpred msucc r hn) (by omega)
      (fun j hj => by rw [show j = 0 by omega]; exact hset) with ⟨s', hpop, hgives⟩
    rw [populateRange_one] at hpop
    refine ⟨_, s', ?_, hgives⟩
    rw [hpop]
    rfl
  | none =>
    dsimp only
    split
    · exact ⟨none, s, rfl, .inl ⟨rfl, rfl⟩⟩
    split
    · exact ⟨none, s, rfl, .inl ⟨rfl, rfl⟩⟩
    split
    · exact ⟨none, s, rfl, .inl ⟨rfl, rfl⟩⟩
    split
    · exact ⟨none, s, rfl, .inl ⟨rfl, rfl⟩⟩
    case h_2 m hm =>
    rcases hphys _ m hm with ⟨halign, hfree⟩
    have hm512 := level0_dvd m (by rw [← level0Size_toNat]; exact halign)
    rcases h.taken m npages0 hfree with ⟨hok, hrun⟩
    rw [npages0] at hok hrun
    rcases hok.newPopulated (fun r' hr' => hlive r' hr') object
      (pindex - BitVec.ofNat 64 (vmReservIndex object.color pindex)) (m / 512)
      (vmReservIndex object.color pindex) 1 (hrun m (by omega) (by omega)).2.2
      (fun j hj => ⟨(hrun (m / 512 * 512 + j) (by omega) (by omega)).1,
        (hrun (m / 512 * 512 + j) (by omega) (by omega)).2.1⟩) (by decide)
      (by omega) with ⟨s', hnew, hok', hlive', -⟩
    rw [if_neg (by rw [vmReservFromPage, npages0]; omega)]
    refine ⟨_, s', ?_, .inr ⟨_, rfl, fun q hlo hhi => ?_, hok', hlive'⟩⟩
    · simp only [vmReservFromPage, npages0]
      rw [show (fun s => populate s (m / 512) (vmReservIndex object.color pindex)) =
        (fun s => populateRange s (m / 512) (vmReservIndex object.color pindex) 1) from
        rfl, hnew]
      rfl
    · exact (hrun q (by omega) (by omega)).2.1

/-- The request covers what is wanted, and less than one superpage more. -/
theorem contigPages_spec (s : State) (object : Object) (pindex : BitVec 64) (npages : Nat)
    (msucc : Option Page) (alloc : Nat) (hpos : 0 < npages)
    (h : contigPages s object pindex npages msucc = some alloc) :
    512 ≤ alloc ∧ vmReservIndex object.color pindex + npages ≤ alloc ∧
      alloc < vmReservIndex object.color pindex + npages + 512 := by
  rw [contigPages] at h
  split at h
  · split at h
    · cases h
    case isFalse hmax =>
      rw [npages0] at hmax
      rw [← Option.some.inj h]
      omega
  · rw [← Option.some.inj h, npages0]
    omega

/-- The larger of two powers of two is a multiple of the smaller. -/
theorem level0_dvd_ulmax (alignment : BitVec 64) (k : Nat) (h : alignment.toNat = 2 ^ k) :
    2 ^ 21 ∣ (ulmax alignment level0Size).toNat := by
  rw [ulmax]
  split
  · rw [level0Size_toNat]
  case isFalse hge =>
    rw [BitVec.lt_def, level0Size_toNat, h, Nat.not_lt] at hge
    rw [h]
    exact Nat.pow_dvd_pow 2 ((Nat.pow_le_pow_iff_right (by decide)).mp hge)

theorem allocContig_gives (h : Ok s u) (hlive : Live s) (object : Object) (pindex : BitVec 64)
    (req : Request) (mpred msucc : Option Page) (phys : Request → Option Nat)
    (hphys : PhysOk s.free phys) (hpos : 0 < req.npages)
    (halign : ∃ k, req.alignment.toNat = 2 ^ k) :
    ∃ m s', allocContig s object pindex req mpred msucc phys = some (m, s') ∧
      Gives s u req.npages m s' := by
  have hindex := vmReservIndex_lt object.color pindex
  rw [allocContig]
  dsimp only
  rw [if_neg (by omega)]
  split
  · exact ⟨none, s, rfl, .inl ⟨rfl, rfl⟩⟩
  split
  · exact ⟨none, s, rfl, .inl ⟨rfl, rfl⟩⟩
  cases hn : (neighbour s object pindex mpred).or (neighbour s object pindex msucc) with
  | some r =>
    dsimp only
    split
    · exact ⟨none, s, rfl, .inl ⟨rfl, rfl⟩⟩
    case isFalse hfit =>
    split
    · exact ⟨none, s, rfl, .inl ⟨rfl, rfl⟩⟩
    split
    · exact ⟨none, s, rfl, .inl ⟨rfl, rfl⟩⟩
    case isFalse hany =>
    rw [Bool.not_eq_true, List.any_eq_false] at hany
    rw [npages0] at hfit
    rcases populateRange_gives h hlive r (vmReservIndex object.color pindex) req.npages
      (neighbours_object s object pindex mpred msucc r hn) (by omega)
      (fun j hj => by
        have := hany j (List.mem_range.mpr hj)
        rwa [Bool.not_eq_true] at this) with ⟨s', hpop, hgives⟩
    refine ⟨_, s', ?_, hgives⟩
    rw [hpop]
    rfl
  | none =>
    dsimp only
    split
    · exact ⟨none, s, rfl, .inl ⟨rfl, rfl⟩⟩
    split
    · exact ⟨none, s, rfl, .inl ⟨rfl, rfl⟩⟩
    case h_2 alloc hcontig =>
    rcases contigPages_spec s object pindex req.npages msucc alloc hpos hcontig with
      ⟨hge, hfits, htight⟩
    split
    · exact ⟨none, s, rfl, .inl ⟨rfl, rfl⟩⟩
    case h_2 m hm =>
    rcases halign with ⟨k, hk⟩
    rcases hphys _ m hm with ⟨hdvd, hfree⟩
    have hm512 := level0_dvd m
      (Nat.dvd_trans (level0_dvd_ulmax req.alignment k hk) hdvd)
    rcases h.taken m alloc hfree with ⟨hok, hrun⟩
    rcases Ok.contigLoop object alloc _ u m
      (pindex - BitVec.ofNat 64 (vmReservIndex object.color pindex))
      (vmReservIndex object.color pindex) req.npages alloc hok
      (fun r' hr' => hlive r' hr') hm512 hpos hindex hge hfits htight
      (Nat.div_le_self alloc 512) hrun with ⟨s', hloop, hok', hlive', -⟩
    refine ⟨some (m + vmReservIndex object.color pindex), s', ?_,
      .inr ⟨_, rfl, fun q hlo hhi => ?_, hok', hlive'⟩⟩
    · rw [hloop]
      rfl
    · exact (hrun q (by omega) (by omega)).2.1

theorem or_none_eq (u : Nat → Bool) : (fun p => u p || decide ((none : Option Nat) = some p)) = u := by
  ext p
  simp

theorem or_some_eq (u : Nat → Bool) (m : Nat) :
    (fun p => u p || decide (some m = some p)) = useRun u m 1 := by
  ext p
  rw [useRun]
  refine congrArg (u p || ·) ?_
  rw [Bool.eq_iff_iff, Bool.and_eq_true, decide_eq_true_eq, decide_eq_true_eq, decide_eq_true_eq,
    Option.some.injEq]
  omega

/-- Dissolving one reservation leaves no empty one behind. -/
theorem Live.gone {s s' : State} (hlive : Live s) (r : Nat)
    (hothers : ∀ r', r' ≠ r → s'.rv r' = s.rv r') (hnone : (s'.rv r).object = none) : Live s' := by
  intro r' hr'
  by_cases hne : r' = r
  · subst hne
    exact absurd hnone hr'
  · rw [hothers r' hne] at hr' ⊢
    exact hlive r' hr'

section

variable (h : Ok s u) (hlive : Live s)
include h hlive

theorem Ok.mem_partpop (r i : Nat) (hobj : (s.rv r).object ≠ none)
    (hi : i < 512) (hunused : u (r * 512 + i) = false) : r ∈ s.partpop := by
  have hclear := ((h.each r).pages hobj i hi).2
  rw [hunused] at hclear
  exact (h.each r).queue.mpr ⟨hobj, hlive r hobj, (h.each r).count_lt i hi hclear⟩

/-- A cached page in no hands. The page populated has to be the page itself. -/
theorem reactivatePage_gives (m object : Nat)
    (color pindex : BitVec 64) (hunused : u m = false)
    (hsame : (s.rv (m / 512)).object = some object →
      (pindex - (s.rv (m / 512)).pindex).toNat = vmReservIndex color pindex →
      m % 512 = vmReservIndex color pindex) :
    ∃ found s', reactivatePage s m object color pindex = some (found, s') ∧
      Gives s u 1 (if found then some m else none) s' := by
  have hindex := vmReservIndex_lt color pindex
  have hmm : m / 512 * 512 + m % 512 = m := by omega
  rw [reactivatePage, vmReservFromPage, npages0]
  by_cases hnone : (s.rv (m / 512)).object = none
  · rw [if_pos hnone]
    exact ⟨false, s, rfl, .inl ⟨rfl, rfl⟩⟩
  rw [if_neg hnone]
  have hmem : m / 512 ∈ s.partpop :=
    h.mem_partpop hlive (m / 512) (m % 512) hnone (by omega) (by rw [hmm]; exact hunused)
  have hflag : (s.rv (m / 512)).inpartpopq = true := (h.each (m / 512)).flag.mpr hmem
  split
  case isTrue hmatch =>
    have hoff := hsame hmatch.1 hmatch.2
    have hclear := ((h.each (m / 512)).pages hnone (m % 512) (by omega)).2
    rw [hmm, hunused, hoff] at hclear
    rcases populateRange_gives h hlive (m / 512) (vmReservIndex color pindex) 1 hnone (by omega)
      (fun j hj => by rw [show j = 0 by omega]; exact hclear) with ⟨s', hpop, hgives⟩
    rw [populateRange_one] at hpop
    refine ⟨true, s', ?_, ?_⟩
    · rw [hpop]
      rfl
    · rw [if_pos rfl, ← hmm, hoff]
      exact hgives
  case isFalse =>
  rw [if_neg (by rw [hflag]; simp)]
  rcases h.vmReservBreak (m / 512) hnone
    (by have := ((h.each (m / 512)).queue.mp hmem).2.2; omega) (.inl rfl) (some m)
    (fun p hp => by
      rw [← Option.some.inj hp]
      exact ⟨by omega, by omega, hunused⟩) with ⟨s', hbreak, hok, hothers, hgone, -, -⟩
  refine ⟨true, s', by rw [hbreak]; rfl, .inr ⟨m, rfl, fun q hlo hhi => ?_, ?_, ?_⟩⟩
  · rw [show q = m by omega]
    exact hunused
  · rw [or_some_eq] at hok
    exact hok
  · exact hlive.gone (m / 512) hothers hgone

/-- A page in use is given back, to its reservation or to the allocator. -/
theorem freePage_keeps (m : Nat) (hused : u m = true) :
    ∃ found s', freePage s m = some (found, s') ∧
      Ok (if found then s' else { s' with free := physFree s'.free m 1 })
        (update u m false) ∧
      Live (if found then s' else { s' with free := physFree s'.free m 1 }) := by
  have hmm : m / 512 * 512 + m % 512 = m := by omega
  rw [freePage, vmReservFromPage, npages0]
  by_cases hnone : (s.rv (m / 512)).object = none
  · rw [if_pos hnone]
    refine ⟨false, s, rfl, ?_, hlive⟩
    simp only [Bool.false_eq_true, if_false]
    refine ⟨fun r => ?_, h.partNodup, h.rvqNodup, fun p hp => ?_⟩
    · by_cases hr : r = m / 512
      · -- The page's own superpage is in no reservation.
        subst hr
        rcases h.each (m / 512) with ⟨hlen, hcount, hflag, hqueue, hps, hidle, hlists, -⟩
        exact ⟨hlen, hcount, hflag, hqueue, hps, hidle, hlists, fun hobj => absurd hnone hobj⟩
      refine (h.each r).untouched ⟨rfl, Iff.rfl, rfl, fun o => Iff.rfl, fun i hi => ⟨?_, ?_⟩⟩
      · exact physFree_outside _ _ _ _ (by omega)
      · exact update_of_ne (by omega) _ _
    dsimp only at hp
    by_cases hpm : p = m
    · rw [hpm, update_self]
    rw [physFree_outside _ _ _ _ (by omega)] at hp
    rw [update_of_ne hpm]
    exact h.apart p hp
  rw [if_neg hnone]
  rcases h.depopulate (m / 512) (m % 512) hnone (by omega) (by rw [hmm]; exact hused) with
    ⟨s', hdep, hok, hothers, hleft⟩
  rw [hmm] at hok
  refine ⟨true, s', ?_, hok, fun r hr => ?_⟩
  · rw [show m - m / 512 * 512 = m % 512 by omega, hdep]
    rfl
  rw [if_pos rfl] at hr ⊢
  by_cases hne : r = m / 512
  · subst hne
    exact hleft.resolve_left hr
  · rw [hothers r hne] at hr ⊢
    exact hlive r hr

theorem rename_keeps (m newObject oldObject : Nat)
    (offset : BitVec 64) :
    Ok (rename s m newObject oldObject offset) u ∧ Live (rename s m newObject oldObject offset) := by
  rw [rename]
  dsimp only
  rw [vmReservFromPage, npages0]
  split
  case isFalse => exact ⟨h, hlive⟩
  case isTrue hobj =>
  have hr := h.each (m / 512)
  -- The old list without it, and the new one with it in front.
  have hold : ∀ o, m / 512 ∉ (if o = oldObject then (s.rvq o).erase (m / 512) else s.rvq o) := by
    intro o
    split
    · exact (h.rvqNodup o).not_mem_erase
    case isFalse hne =>
      intro hmem
      rw [hr.lists, hobj] at hmem
      exact hne (Option.some.inj hmem).symm
  have hother : ∀ o r, r ≠ m / 512 →
      (r ∈ (if o = oldObject then (s.rvq o).erase (m / 512) else s.rvq o) ↔ r ∈ s.rvq o) := by
    intro o r hne
    split
    · exact ((h.rvqNodup o).mem_erase_iff).trans (and_iff_right hne)
    · rfl
  have hnodup : ∀ o, (if o = oldObject then (s.rvq o).erase (m / 512) else s.rvq o).Nodup := by
    intro o
    split
    · exact (h.rvqNodup o).erase _
    · exact h.rvqNodup o
  refine ⟨⟨fun r => ?_, h.partNodup, fun o => ?_, h.apart⟩, fun r hr' => ?_⟩
  · by_cases hne : r = m / 512
    · subst hne
      refine ⟨?_, ?_, ?_, ?_, ?_, ?_, fun o => ?_, fun _ i hi => ?_⟩
      all_goals simp only [State.setRv, update_self]
      · exact hr.len
      · exact hr.count
      · exact hr.flag
      · rw [hr.queue, hobj]
        simp
      · rw [hr.psind, hobj]
        simp
      · rintro ⟨⟩
      · by_cases ho : o = newObject
        · simp [ho]
        rw [if_neg ho]
        constructor
        · exact fun hmem => absurd hmem (hold o)
        · exact fun he => absurd (Option.some.inj he).symm ho
      · exact hr.pages (by rw [hobj]; exact Option.some_ne_none _) i hi
    refine (h.each r).untouched ⟨update_of_ne hne _ _, Iff.rfl, rfl, fun o => ?_,
      fun i _ => ⟨rfl, rfl⟩⟩
    dsimp only
    split
    · rw [List.mem_cons]
      exact (or_iff_right hne).trans (hother o r hne)
    · exact hother o r hne
  · dsimp only
    split
    · exact List.nodup_cons.mpr ⟨hold o, hnodup o⟩
    · exact hnodup o
  by_cases hne : r = m / 512
  · subst hne
    simp only [State.setRv, update_self]
    exact hlive _ (by rw [hobj]; exact Option.some_ne_none _)
  · simp only [State.setRv, update_of_ne hne] at hr' ⊢
    exact hlive r hr'

end

/-- The reservations of an object, none of which is full, are dissolved one by
    one. -/
theorem breakAllLoop_keeps (object : Nat) (n : Nat) : ∀ (s : State), Ok s u → Live s →
    (s.rvq object).length = n → (∀ r, (s.rv r).object = some object → (s.rv r).popcnt ≠ 512) →
    ∃ s', breakAllLoop object n s = some s' ∧ Ok s' u ∧ Live s' := by
  induction n with
  | zero =>
    intro s h hlive hlen _
    rw [breakAllLoop, if_pos (List.length_eq_zero_iff.mp hlen)]
    exact ⟨s, rfl, h, hlive⟩
  | succ n ih =>
    intro s h hlive hlen hsmall
    rw [breakAllLoop]
    cases hq : s.rvq object with
    | nil =>
      rw [hq] at hlen
      cases hlen
    | cons r rs =>
      have hobj : (s.rv r).object = some object :=
        ((h.each r).lists object).mp (by rw [hq]; exact List.mem_cons_self)
      have hactive : (s.rv r).object ≠ none := by
        rw [hobj]
        exact Option.some_ne_none _
      have hcase : (if (s.rv r).inpartpopq = true then unqueue s r else s) = unqueue s r ∨
          ((if (s.rv r).inpartpopq = true then unqueue s r else s) = s ∧
            (s.rv r).inpartpopq = false) := by
        split
        · exact .inl rfl
        case isFalse hf => exact .inr ⟨rfl, (Bool.not_eq_true _).mp hf⟩
      rcases h.vmReservBreak r hactive (hsmall r hobj) hcase none nofun with
        ⟨s₁, hbreak, hok₁, hothers, hgone, hrvq, -⟩
      rw [or_none_eq] at hok₁
      have hlen₁ : (s₁.rvq object).length = n := by
        rw [hrvq, if_pos hobj, hq, List.erase_cons_head]
        rw [hq] at hlen
        exact Nat.succ.inj hlen
      have hsmall₁ : ∀ r', (s₁.rv r').object = some object → (s₁.rv r').popcnt ≠ 512 := by
        intro r' hr'
        by_cases hne : r' = r
        · rw [hne, hgone] at hr'
          cases hr'
        · rw [hothers r' hne] at hr' ⊢
          exact hsmall r' hr'
      rcases ih s₁ hok₁ (hlive.gone r hothers hgone) hlen₁ hsmall₁ with
        ⟨s', hloop, hok', hlive'⟩
      refine ⟨s', ?_, hok', hlive'⟩
      dsimp only
      rw [if_neg (fun hne => hne hobj), hbreak]
      exact hloop

theorem vmReservReclaim_keeps (h : Ok s u) (hlive : Live s) (r : Nat) (hr : r ∈ s.partpop) :
    ∃ s', vmReservReclaim s r = some s' ∧ Ok s' u ∧ Live s' := by
  have hq := (h.each r).queue.mp hr
  have hflag : (s.rv r).inpartpopq = true := (h.each r).flag.mpr hr
  rcases h.vmReservBreak r hq.1 (by omega) (.inl rfl) none nofun with
    ⟨s', hbreak, hok, hothers, hgone, -⟩
  rw [or_none_eq] at hok
  refine ⟨s', ?_, hok, hlive.gone r hothers hgone⟩
  rw [vmReservReclaim, if_neg (by rw [hflag]; simp), hbreak]

theorem reclaimInactive_keeps (h : Ok s u) (hlive : Live s) :
    ∃ found s', reclaimInactive s = some (found, s') ∧ Ok s' u ∧ Live s' := by
  rw [reclaimInactive]
  cases hq : s.partpop with
  | nil => exact ⟨false, s, rfl, h, hlive⟩
  | cons r rs =>
    rcases vmReservReclaim_keeps h hlive r (by rw [hq]; exact List.mem_cons_self) with
      ⟨s', hreclaim, hok, hlive'⟩
    refine ⟨true, s', ?_, hok, hlive'⟩
    dsimp only
    rw [hreclaim]
    rfl

theorem reclaimContig_keeps (h : Ok s u) (hlive : Live s) (req : Request)
    (hpos : 0 < req.npages) :
    ∃ found s', reclaimContig s req = some (found, s') ∧ Ok s' u ∧ Live s' := by
  rw [reclaimContig]
  split
  · exact ⟨false, s, rfl, h, hlive⟩
  rcases reclaimContigLoop_spec s req hpos s.partpop with ⟨r, hr, -, heq⟩ | ⟨-, heq⟩
  · rcases vmReservReclaim_keeps h hlive r hr with ⟨s', hreclaim, hok, hlive'⟩
    exact ⟨true, s', by rw [heq, hreclaim]; rfl, hok, hlive'⟩
  · exact ⟨false, s, heq, h, hlive⟩

end FreeBSDKern.Reserv
