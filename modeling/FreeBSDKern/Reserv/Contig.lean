import FreeBSDKern.Reserv.Keep

/-!
# Runs of Pages and the Search for Them

The two loops over more than one page. `vm_reserv_alloc_contig` makes a
reservation of every superpage its run of pages covers, and leaves what is over
outside of any; `vm_reserv_reclaim_contig` looks for a reservation with room for
a run. The first keeps the invariant, and an active reservation never ends up
without a page in use. The second comes to an end, never looks below the address
asked for, and overlooks no run that would do.

## Main definitions

* `Live`: An active reservation has a page in use.
* `Room`: Unused pages of a reservation that would do.

## Theorems

* `Ok.contigLoop`: The reservations of a new run.
* `searchReserv_spec`, `reclaimable_spec`: The search of a reservation.
* `reclaimContigLoop_spec`: The search of the queue.
-/

namespace FreeBSDKern.Reserv

open Lib

/-- No active reservation is empty. -/
def Live (s : State) : Prop := ∀ r, (s.rv r).object ≠ none → 0 < (s.rv r).popcnt

variable {s : State} {u : Nat → Bool}

/-- Pages that leave the free lists. -/
theorem Ok.take (h : Ok s u) (free : Nat → Bool) (hless : ∀ p, free p = true → s.free p = true) :
    Ok { s with free := free } u := by
  have hnot : ∀ p, s.free p = false → free p = false := by
    intro p hp
    rw [← Bool.not_eq_true] at hp ⊢
    exact fun hf => hp (hless p hf)
  refine ⟨fun r => ?_, h.partNodup, h.rvqNodup, fun p hp => h.apart p (hless p hp)⟩
  rcases h.each r with ⟨hlen, hcount, hflag, hqueue, hps, hidle, hlists, hpages⟩
  exact ⟨hlen, hcount, hflag, hqueue, hps, hidle, hlists, fun hobj i hi =>
    ⟨hnot _ (hpages hobj i hi).1, (hpages hobj i hi).2⟩⟩

variable (free : Nat → Bool) (popmap : List (BitVec 64))

theorem physTake_eq_true (m n p : Nat) :
    physTake free m n p = true ↔ free p = true ∧ ¬ (m ≤ p ∧ p < m + n) := by
  rw [physTake, Bool.and_eq_true, Bool.not_eq_true', Bool.and_eq_false_iff,
    decide_eq_false_iff_not, decide_eq_false_iff_not, not_and_or]

theorem physTake_inside (m n p : Nat) (hp : m ≤ p ∧ p < m + n) : physTake free m n p = false := by
  rw [← Bool.not_eq_true, physTake_eq_true]
  exact fun hf => hf.2 hp

theorem useRun_eq_true (u : Nat → Bool) (m n p : Nat) :
    useRun u m n p = true ↔ u p = true ∨ m ≤ p ∧ p < m + n := by
  rw [useRun, Bool.or_eq_true, Bool.and_eq_true, decide_eq_true_eq, decide_eq_true_eq]

theorem useRun_outside (u : Nat → Bool) (m n p : Nat) (h : ¬ (m ≤ p ∧ p < m + n)) :
    useRun u m n p = u p := by
  rw [Bool.eq_iff_iff, useRun_eq_true]
  exact or_iff_left h

theorem useRun_useRun (u : Nat → Bool) (m k n : Nat) :
    useRun (useRun u m k) (m + k) n = useRun u m (k + n) := by
  ext p
  rw [Bool.eq_iff_iff, useRun_eq_true, useRun_eq_true, useRun_eq_true, or_assoc]
  refine or_congr_right ?_
  omega

/-- A page of an active reservation is not in the free lists. -/
theorem Ok.object_of_free (h : Ok s u) (p : Nat) (hp : s.free p = true) :
    (s.rv (p / 512)).object = none := by
  by_contra hobj
  have := ((h.each (p / 512)).pages hobj (p % 512) (Nat.mod_lt p (by decide))).1
  rw [Nat.div_add_mod' p 512, hp] at this
  cases this

/-- Pages outside of any reservation are taken into use. -/
theorem Ok.useOutside (h : Ok s u) (m n : Nat)
    (hrun : ∀ p, m ≤ p → p < m + n → s.free p = false ∧ (s.rv (p / 512)).object = none) :
    Ok s (useRun u m n) := by
  refine ⟨fun r => ?_, h.partNodup, h.rvqNodup, fun p hp => ?_⟩
  · rcases h.each r with ⟨hlen, hcount, hflag, hqueue, hps, hidle, hlists, hpages⟩
    refine ⟨hlen, hcount, hflag, hqueue, hps, hidle, hlists, fun hobj i hi =>
      ⟨(hpages hobj i hi).1, ?_⟩⟩
    rw [useRun_outside]
    · exact (hpages hobj i hi).2
    intro hin
    have hnone := (hrun _ hin.1 hin.2).2
    rw [show (r * 512 + i) / 512 = r by omega] at hnone
    exact hobj hnone
  rw [useRun_outside]
  · exact h.apart p hp
  intro hin
  rw [(hrun p hin.1 hin.2).1] at hp
  cases hp

theorem populateRange_one (s : State) (r i : Nat) : populateRange s r i 1 = populate s r i := rfl

/-- A new reservation with a run of pages in use. -/
theorem Ok.newPopulated (h : Ok s u) (hlive : Live s) (object : Object) (first : BitVec 64)
    (r i n : Nat) (hobj : (s.rv r).object = none)
    (hfree : ∀ j, j < 512 → s.free (r * 512 + j) = false ∧ u (r * 512 + j) = false)
    (hpos : 0 < n) (hn : i + n ≤ 512) :
    ∃ s', (Reserv.newReserv s object r first).bind (fun s => Reserv.populateRange s r i n) = some s' ∧
      Ok s' (useRun u (r * 512 + i) n) ∧ Live s' ∧ (∀ r', r' ≠ r → s'.rv r' = s.rv r') ∧
      s'.free = s.free := by
  rcases h.newReserv object first hobj hfree with
    ⟨s₁, hnew, hok₁, hothers₁, hobj₁, hcnt₁, hfr₁, -⟩
  have hactive : (s₁.rv r).object ≠ none := by
    rw [hobj₁]
    exact Option.some_ne_none _
  rcases hok₁.populateRange r i hactive n hn (fun j hj => (hfree (i + j) (by omega)).2) with
    ⟨s₂, hpop, hok₂, hothers₂, hobj₂, hcnt₂, hfr₂, -⟩
  have hrest : ∀ r', r' ≠ r → s₂.rv r' = s.rv r' :=
    fun r' hne => (hothers₂ r' hne).trans (hothers₁ r' hne)
  refine ⟨s₂, by rw [hnew]; exact hpop, hok₂, fun r' hr' => ?_, hrest, hfr₂.trans hfr₁⟩
  by_cases hne : r' = r
  · subst hne
    rw [hcnt₂, hcnt₁]
    omega
  · rw [hrest r' hne] at hr' ⊢
    exact hlive r' hr'

/-- The loop over the superpages of a run that was just taken from the allocator.
    `alloc` pages of it are left, and `n` of them are wanted, from `index` on. -/
theorem Ok.contigLoop (object : Object) (fuel : Nat) : ∀ (s : State) (u : Nat → Bool) (m : Nat)
    (first : BitVec 64) (index n alloc : Nat), Ok s u → Live s → m % 512 = 0 → 0 < n →
    index < 512 → 512 ≤ alloc → index + n ≤ alloc → alloc < index + n + 512 → alloc / 512 ≤ fuel →
    (∀ p, m ≤ p → p < m + alloc → s.free p = false ∧ u p = false ∧ (s.rv (p / 512)).object = none) →
    ∃ s', Reserv.contigLoop object fuel s m first index n alloc = some s' ∧
      Ok s' (useRun u (m + index) n) ∧ Live s' ∧ s'.free = s.free := by
  induction fuel with
  | zero =>
    intro s u m first index n alloc _ _ _ _ _ halloc _ _ hfuel
    omega
  | succ fuel ih =>
    intro s u m first index n alloc h hlive hm hn hindex halloc hfits htight hfuel hrun
    have hbase : vmReservFromPage m * npages0 = m := by
      rw [vmReservFromPage, npages0]
      omega
    have hr : m / 512 * 512 = m := by omega
    have hk : 0 < min (512 - index) n := by omega
    rcases h.newPopulated hlive object first (m / 512) index (min (512 - index) n)
      (hrun m le_rfl (by omega)).2.2
      (fun j hj => by
        have := hrun (m / 512 * 512 + j) (by omega) (by omega)
        exact ⟨this.1, this.2.1⟩) hk (by omega) with ⟨s₁, hnew, hok₁, hlive₁, hothers, hfr⟩
    rw [hr] at hok₁
    rw [Reserv.contigLoop]
    dsimp only
    rw [if_neg (by rw [hbase]; exact fun hne => hne rfl)]
    rw [vmReservFromPage, npages0, hnew]
    dsimp only
    by_cases hmore : alloc - 512 ≥ 512
    · -- There is another superpage, so this one was used to its end.
      have hkeq : min (512 - index) n = 512 - index := by omega
      have hrun₁ : ∀ p, m + 512 ≤ p → p < m + 512 + (alloc - 512) → s₁.free p = false ∧
          useRun u (m + index) (min (512 - index) n) p = false ∧
          (s₁.rv (p / 512)).object = none := by
        intro p hlo hhi
        rcases hrun p (by omega) (by omega) with ⟨hp1, hp2, hp3⟩
        rw [hfr, useRun_outside _ _ _ _ (by omega), hothers _ (by omega)]
        exact ⟨hp1, hp2, hp3⟩
      rw [if_pos hmore]
      rcases ih s₁ (useRun u (m + index) (min (512 - index) n)) (m + 512)
        (first + BitVec.ofNat 64 512) 0 (n - min (512 - index) n) (alloc - 512) hok₁ hlive₁
        (by omega) (by omega) (by omega) hmore (by omega) (by omega) (by omega) hrun₁ with
        ⟨s', hloop, hok', hlive', hfr'⟩
      refine ⟨s', hloop, ?_, hlive', hfr'.trans hfr⟩
      rw [hkeq, show m + 512 + 0 = m + index + (512 - index) by omega, useRun_useRun,
        show 512 - index + (n - (512 - index)) = n by omega] at hok'
      exact hok'
    rw [if_neg hmore]
    refine ⟨s₁, rfl, ?_, hlive₁, hfr⟩
    -- What is left of the run belongs to no reservation.
    have hout := hok₁.useOutside (m + index + min (512 - index) n) (n - min (512 - index) n)
      (fun p hlo hhi => by
        rcases hrun p (by omega) (by omega) with ⟨hp1, -, hp3⟩
        rw [hfr, hothers _ (by omega)]
        exact ⟨hp1, hp3⟩)
    rw [useRun_useRun, show min (512 - index) n + (n - min (512 - index) n) = n by omega] at hout
    exact hout

theorem nextZero_spec (n : Nat) : ∀ i, i + n = npopmap →
    ∃ z, Scan (fun q => !WordMap.bit popmap q) (64 * i) (nextZero popmap n i) z := by
  induction n with
  | zero => exact fun i hi => ⟨512, scan_end _ hi⟩
  | succ n ih =>
    intro i hi
    rw [nextZero]
    rcases ffs_not popmap i with ⟨hfull, hset⟩ | ⟨k, hk, hffs, hbit, hbelow⟩
    · rw [if_pos hfull]
      rcases ih (i + 1) (by omega) with ⟨z, hz⟩
      exact ⟨z, hz.of_later (by omega) (fun q hlo hq => by rw [hset q hlo hq]; rfl)⟩
    rw [if_neg (by omega), hffs]
    rw [npopmap] at hi
    exact ⟨64 * i + k, Nat.le_add_right _ k, fun q hlo hq => by rw [hbelow q hlo hq]; rfl,
      .inr ⟨by dsimp only; omega, Nat.succ_pos k, hk, rfl, by rw [hbit]; rfl⟩⟩

/-- The next free page of the search, at or after the place it stands. -/
theorem nextFree_spec (i hi : Nat) (h : i < 8) (hhi : hi < 64) :
    ∃ z, Scan (fun q => !WordMap.bit popmap q) (64 * i + hi)
      (if WordMap.ffs (~~~(below hi ||| WordMap.word popmap i)) = 0 then
        nextZero popmap (npopmap - (i + 1)) (i + 1)
      else (i, WordMap.ffs (~~~(below hi ||| WordMap.word popmap i)))) z := by
  rcases ffs_from popmap i hi hhi with ⟨hnone, hset⟩ | ⟨k, hk, hffs, hle, hbit, hbelow⟩
  · rw [if_pos hnone]
    rcases nextZero_spec popmap (npopmap - (i + 1)) (i + 1) (by rw [npopmap]; omega) with ⟨z, hz⟩
    exact ⟨z, hz.of_later (by omega) (fun q hlo hq => by rw [hset q hlo hq]; rfl)⟩
  rw [if_neg (by omega), hffs]
  exact ⟨64 * i + k, Nat.add_le_add_left hle _, fun q hlo hq => by rw [hbelow q hlo hq]; rfl,
    .inr ⟨h, Nat.succ_pos k, hk, rfl, by rw [hbit]; rfl⟩⟩

/-- The next used page after a free one, unless enough words are clear before it. -/
theorem usedAfter_spec (nextFree size n : Nat) : ∀ i, i + n = npopmap → nextFree ≤ 64 * i →
    (∀ q, nextFree ≤ q → q < 64 * i → WordMap.bit popmap q = false) →
    (usedAfter popmap nextFree size n i = none ∧ ∃ z, z ≤ 512 ∧ size ≤ (z - nextFree) * 2 ^ pageShift ∧
      ∀ q, nextFree ≤ q → q < z → WordMap.bit popmap q = false) ∨
    ∃ r z, usedAfter popmap nextFree size n i = some r ∧ Scan (WordMap.bit popmap) nextFree r z := by
  induction n with
  | zero => exact fun i hi hle hskip => .inr ⟨(i, 0), 512, rfl, (scan_end _ hi).of_later hle hskip⟩
  | succ n ih =>
    intro i hi hle hskip
    rw [usedAfter]
    rw [npopmap] at ih hi
    by_cases hsize : (nbpopmap * i - nextFree) * 2 ^ pageShift ≥ size
    · rw [if_pos hsize]
      exact .inl ⟨rfl, 64 * i, by omega, hsize, hskip⟩
    rw [if_neg hsize]
    rcases WordMap.ffs_reads _ (64 * i) (word_bits popmap i) with
      ⟨hzero, hword⟩ | ⟨k, hk, hffs, hbit, hbelow⟩
    · rw [if_pos hzero]
      refine ih (i + 1) (by omega) (by omega) (fun q hlo hq => ?_)
      by_cases hq' : q < 64 * i
      · exact hskip q hlo hq'
      · exact hword q (by omega) hq
    rw [if_neg (by omega), hffs]
    have hscan : Scan (WordMap.bit popmap) (64 * i) (i, k + 1) (64 * i + k) :=
      ⟨Nat.le_add_right _ k, hbelow, .inr ⟨by dsimp only; omega, Nat.succ_pos k, hk, rfl, hbit⟩⟩
    exact .inr ⟨(i, k + 1), 64 * i + k, rfl, hscan.of_later hle hskip⟩

/-- The end of the run of free pages from position `lo` of the word on. -/
theorem nextUsed_spec (i lo size : Nat) (h : i < 8) (hlo : lo < 64) :
    (if WordMap.ffs (WordMap.word popmap i &&& ~~~(below lo)) = 0 then
        usedAfter popmap (64 * i + lo) size (8 - (i + 1)) (i + 1)
      else some (i, WordMap.ffs (WordMap.word popmap i &&& ~~~(below lo)))) = none ∧
      (∃ z, z ≤ 512 ∧ size ≤ (z - (64 * i + lo)) * 2 ^ pageShift ∧
        ∀ q, 64 * i + lo ≤ q → q < z → WordMap.bit popmap q = false) ∨
    ∃ r z, (if WordMap.ffs (WordMap.word popmap i &&& ~~~(below lo)) = 0 then
        usedAfter popmap (64 * i + lo) size (8 - (i + 1)) (i + 1)
      else some (i, WordMap.ffs (WordMap.word popmap i &&& ~~~(below lo)))) = some r ∧
      Scan (WordMap.bit popmap) (64 * i + lo) r z := by
  have hread : ∀ k, k < 64 → (WordMap.word popmap i &&& ~~~(below lo)).getLsbD k =
      (WordMap.bit popmap (64 * i + k) && decide (64 * i + lo ≤ 64 * i + k)) := by
    intro k hk
    rw [BitVec.getLsbD_and, BitVec.getLsbD_not, getLsbD_below _ _ hlo, word_bits _ _ _ hk]
    by_cases hle : lo ≤ k
    · simp [hk, hle]
    · simp [hle, show k < lo by omega]
  have hfrom : ∀ q, 64 * i + lo ≤ q →
      (WordMap.bit popmap q && decide (64 * i + lo ≤ q)) = false → WordMap.bit popmap q = false := by
    intro q hq hclear
    rwa [decide_eq_true hq, Bool.and_true] at hclear
  rcases WordMap.ffs_reads (f := fun q => WordMap.bit popmap q && decide (64 * i + lo ≤ q)) _ _ hread
    with ⟨hnone, hrest⟩ | ⟨k, hk, hffs, hbit, hbelow⟩
  · rw [if_pos hnone]
    exact usedAfter_spec popmap (64 * i + lo) size (8 - (i + 1)) (i + 1) (by rw [npopmap]; omega)
      (by omega) (fun q hq hlt => hfrom q hq (hrest q (by omega) (by omega)))
  rw [if_neg (by omega), hffs]
  rw [Bool.and_eq_true, decide_eq_true_eq] at hbit
  exact .inr ⟨(i, k + 1), 64 * i + k, rfl, hbit.2,
    fun q hq hlt => hfrom q hq (hbelow q (by omega) hlt), .inr ⟨h, Nat.succ_pos k, hk, rfl, hbit.1⟩⟩

/-- Pages with room for the request from `a` on, in a reservation that starts at
    page `base`. -/
structure Room (base : Nat) (req : Request) (a : Nat) : Prop where
  inside : a + req.npages ≤ npages0
  unused : ∀ q, a ≤ q → q < a + req.npages → WordMap.bit popmap q = false
  low : req.low.toNat ≤ (base + a) * 2 ^ pageShift
  high : (base + a) * 2 ^ pageShift + req.npages * 2 ^ pageShift ≤ req.high.toNat
  fits : fitsAddress (BitVec.ofNat 64 ((base + a) * 2 ^ pageShift))
    (BitVec.ofNat 64 (req.npages * 2 ^ pageShift)) req.alignment req.boundary = true

/-- No room is overlooked between two places. -/
theorem room_from {P : Nat → Prop} {p z : Nat} (hpz : p ≤ z) (h : ∀ a, p ≤ a → P a → z ≤ a) :
    (∃ a, p ≤ a ∧ P a) ↔ ∃ a, z ≤ a ∧ P a :=
  exists_congr (fun a => ⟨fun ha => ⟨h a ha.1 ha.2, ha.2⟩, fun ha => ⟨hpz.trans ha.1, ha.2⟩⟩)

/-- Every round of the search starts after the free page of the one before, and
    what is passed over has no room. -/
theorem searchReserv_spec (base : Nat) (req : Request) (hn : 0 < req.npages) (fuel : Nat) :
    ∀ i hi, i < 8 → hi < 64 → 512 < fuel + (64 * i + hi) →
      req.low.toNat ≤ (base + (64 * i + hi)) * 2 ^ pageShift →
      ∃ found, searchReserv popmap base req fuel i hi = some found ∧
        (found = true ↔ ∃ a, 64 * i + hi ≤ a ∧ Room popmap base req a) := by
  induction fuel with
  | zero =>
    intro i hi h hhi hfuel
    omega
  | succ fuel ih =>
    intro i hi h hhi hfuel hlow
    have hinside : ∀ a, Room popmap base req a → a < 512 ∧ WordMap.bit popmap a = false := by
      intro a ha
      have := ha.inside
      rw [npages0] at this
      exact ⟨by omega, ha.unused a le_rfl (by omega)⟩
    have hpast : ∀ o, 512 ≤ o → ∃ found, some false = some found ∧
        (found = true ↔ ∃ a, o ≤ a ∧ Room popmap base req a) := by
      intro o ho
      refine ⟨false, rfl, iff_of_false Bool.false_ne_true ?_⟩
      rintro ⟨a, ha, hroom⟩
      exact absurd (hinside a hroom).1 (Nat.not_lt.mpr (ho.trans ha))
    rcases nextFree_spec popmap i hi h hhi with ⟨z, hfree⟩
    rw [searchReserv]
    dsimp only
    generalize (if WordMap.ffs (~~~(below hi ||| WordMap.word popmap i)) = 0 then
      nextZero popmap (npopmap - (i + 1)) (i + 1)
    else (i, WordMap.ffs (~~~(below hi ||| WordMap.word popmap i)))) = next at hfree ⊢
    rcases next with ⟨i₁, lo⟩
    have hpz := hfree.after
    rw [room_from hpz (z := z) (fun a ha hroom => by
      by_contra hlt
      have := hfree.skipped a ha (by omega)
      rw [(hinside a hroom).2] at this
      cases this)]
    dsimp only
    rw [nbpopmap, npopmap]
    rcases hfree.stop with ⟨hend, -, hz⟩ | ⟨hi₁, hpos, hle, hz, hclear⟩
    · rw [if_pos hend]
      exact hpast z hz.ge
    dsimp only at hi₁ hpos hle hz hclear
    rw [Bool.not_eq_true'] at hclear
    rw [if_neg (by omega), ← hz]
    have hpa : req.low.toNat ≤ (base + z) * 2 ^ pageShift :=
      hlow.trans (Nat.mul_le_mul_right _ (by omega))
    rw [if_neg (Nat.not_lt.mpr hpa)]
    by_cases hhigh : (base + z) * 2 ^ pageShift + req.npages * 2 ^ pageShift > req.high.toNat
    · rw [if_pos hhigh]
      refine ⟨false, rfl, iff_of_false Bool.false_ne_true ?_⟩
      rintro ⟨a, ha, hroom⟩
      have := hroom.high
      have := Nat.mul_le_mul_right (2 ^ pageShift) (Nat.add_le_add_left ha base)
      omega
    rw [if_neg hhigh]
    by_cases hfit : fitsAddress (BitVec.ofNat 64 ((base + z) * 2 ^ pageShift))
        (BitVec.ofNat 64 (req.npages * 2 ^ pageShift)) req.alignment req.boundary = false
    · -- The page does not meet the requirements: on to the next one.
      rw [if_pos hfit, room_from (Nat.le_succ z) (fun a ha hroom => by
        refine lt_of_le_of_ne ha (fun he => ?_)
        have := hroom.fits
        rw [← he, hfit] at this
        cases this)]
      have hlow' : req.low.toNat ≤ (base + (z + 1)) * 2 ^ pageShift :=
        hpa.trans (Nat.mul_le_mul_right _ (by omega))
      by_cases hword : lo - 1 + 1 ≥ 64
      · rw [if_pos hword]
        dsimp only
        have hz' : z + 1 = 64 * (i₁ + 1) + 0 := by omega
        by_cases hlast : i₁ + 1 < 8
        · rw [if_pos hlast, Nat.succ_eq_add_one, hz']
          exact ih (i₁ + 1) 0 hlast (by omega) (by omega) (hz' ▸ hlow')
        · rw [if_neg hlast]
          exact hpast _ (by omega)
      rw [if_neg hword]
      dsimp only
      have hz' : z + 1 = 64 * i₁ + (lo - 1 + 1) := by omega
      rw [if_pos hi₁, Nat.succ_eq_add_one, hz']
      exact ih i₁ (lo - 1 + 1) hi₁ (by omega) (by omega) (hz' ▸ hlow')
    rw [if_neg hfit]
    rw [Bool.not_eq_false] at hfit
    have hroom : ∀ o, o ≤ 512 → (∀ q, z ≤ q → q < o → WordMap.bit popmap q = false) →
        req.npages * 2 ^ pageShift ≤ (o - z) * 2 ^ pageShift →
        ∃ a, z ≤ a ∧ Room popmap base req a := by
      intro o ho hrun hsize
      have := Nat.le_of_mul_le_mul_right hsize (by decide)
      exact ⟨z, Nat.le_refl z, by rw [npages0]; omega, fun q hq hlt => hrun q hq (by omega),
        hpa, not_lt.mp hhigh, hfit⟩
    rw [hz]
    rcases nextUsed_spec popmap i₁ (lo - 1) (req.npages * 2 ^ pageShift) hi₁ (by omega) with
      ⟨hnone, o, ho, hsize, hrun⟩ | ⟨⟨i₂, h₂⟩, o, heq, hused⟩
    · rw [hnone, ← hz]
      rw [← hz] at hsize hrun
      exact ⟨true, rfl, iff_of_true rfl (hroom o ho hrun hsize)⟩
    rw [heq, ← hz]
    rw [← hz] at hused
    dsimp only
    have hstop := hused.stop
    dsimp only at hstop
    have ho : 64 * i₂ + (if i₂ ≠ 8 then h₂ - 1 else h₂) = o := by
      split
      all_goals omega
    rw [ho]
    by_cases hsize : (o - z) * 2 ^ pageShift ≥ req.npages * 2 ^ pageShift
    · rw [if_pos hsize]
      exact ⟨true, rfl, iff_of_true rfl (hroom o (by omega) hused.skipped hsize)⟩
    rw [if_neg hsize]
    have hshort : o - z < req.npages :=
      Nat.lt_of_mul_lt_mul_right (not_le.mp hsize)
    -- A run that starts before the used page would go beyond it.
    rw [room_from hused.after (fun a ha hroom => by
      by_contra hlt
      have := hroom.inside
      rw [npages0] at this
      rcases hstop with hs | hs
      · omega
      have := hroom.unused o (by omega) (by omega)
      rw [hs.2.2.2.2] at this
      cases this)]
    rcases hstop with ⟨hi₂, -, ho'⟩ | ⟨hi₂, hpos₂, hle₂, ho', hset⟩
    · rw [if_neg (by omega)]
      exact hpast o ho'.ge
    rw [if_pos hi₂, if_pos (by omega), ho']
    have hzo : z ≠ o := by
      intro he
      rw [he, hset] at hclear
      cases hclear
    have := hused.after
    exact ih i₂ (h₂ - 1) hi₂ (by omega) (by omega) (ho' ▸ hpa.trans
      (Nat.mul_le_mul_right _ (by omega)))

/-- The search of a reservation ends, and finds whether it has room. -/
theorem reclaimable_spec (s : State) (req : Request) (r : Nat) (hpos : 0 < req.npages) :
    ∃ found, reclaimable s req r = some found ∧
      (found = true ↔ ∃ a, Room (s.rv r).popmap (r * npages0) req a) := by
  have hroom : ∀ a, Room (s.rv r).popmap (r * npages0) req a → a + req.npages ≤ 512 ∧
      req.low.toNat ≤ (r * 512 + a) * 4096 ∧
      (r * 512 + a) * 4096 + req.npages * 4096 ≤ req.high.toNat :=
    fun a ha => ⟨ha.inside, ha.low, ha.high⟩
  have hsearch : ∀ index, index < 512 → (∀ a, req.low.toNat ≤ (r * 512 + a) * 4096 ↔ index ≤ a) →
      ∃ found, searchReserv (s.rv r).popmap (r * npages0) req (npages0 + 1) (index / nbpopmap)
        (index % nbpopmap) = some found ∧
      (found = true ↔ ∃ a, Room (s.rv r).popmap (r * npages0) req a) := by
    intro index hlt hlow
    have hindex := (hlow index).mpr le_rfl
    rcases searchReserv_spec (s.rv r).popmap (r * npages0) req hpos 513 (index / 64) (index % 64)
      (by omega) (by omega) (by omega) (by rw [Nat.div_add_mod]; exact hindex) with
      ⟨found, hres, hiff⟩
    rw [Nat.div_add_mod] at hiff
    exact ⟨found, hres, hiff.trans (exists_congr (fun a =>
      and_iff_right_of_imp (fun ha => (hlow a).mp ha.low)))⟩
  rw [reclaimable]
  dsimp only
  split
  case isTrue hlow =>
    simp only [npages0, pageShift, Nat.reducePow] at hlow
    refine ⟨false, rfl, iff_of_false Bool.false_ne_true ?_⟩
    rintro ⟨a, ha⟩
    have := hroom a ha
    omega
  case isFalse hlow =>
  simp only [npages0, pageShift, Nat.reducePow] at hlow
  split
  case isTrue hhigh =>
    simp only [npages0, pageShift, Nat.reducePow] at hhigh
    refine ⟨false, rfl, iff_of_false Bool.false_ne_true ?_⟩
    rintro ⟨a, ha⟩
    have := hroom a ha
    omega
  case isFalse =>
  rcases lt_or_ge (r * npages0 * 2 ^ pageShift) req.low.toNat with hpa | hpa
  · rw [if_pos hpa]
    simp only [npages0, pageShift, Nat.reducePow] at hpa ⊢
    exact hsearch _ (by omega) (fun a => by omega)
  rw [if_neg (Nat.not_lt.mpr hpa)]
  simp only [npages0, pageShift, Nat.reducePow] at hpa
  exact hsearch 0 (by omega) (fun a => by omega)

/-- The first reservation with room is dissolved. -/
theorem reclaimContigLoop_spec (s : State) (req : Request) (hpos : 0 < req.npages)
    (rs : List Nat) : (∃ r ∈ rs, (∃ a, Room (s.rv r).popmap (r * npages0) req a) ∧
      reclaimContigLoop s req rs = (vmReservReclaim s r).map (fun s => (true, s))) ∨
    (∀ r ∈ rs, ¬ ∃ a, Room (s.rv r).popmap (r * npages0) req a) ∧
      reclaimContigLoop s req rs = some (false, s) := by
  induction rs with
  | nil => exact .inr ⟨fun r hr => (nomatch hr), rfl⟩
  | cons r rs ih =>
    rcases reclaimable_spec s req r hpos with ⟨found, hfound, hiff⟩
    rw [reclaimContigLoop, hfound, Option.bind_some]
    cases found with
    | true => exact .inl ⟨r, List.mem_cons_self, hiff.mp rfl, if_pos rfl⟩
    | false =>
      have hno := mt hiff.mpr Bool.false_ne_true
      rw [if_neg Bool.false_ne_true]
      rcases ih with ⟨r', hr', hroom, heq⟩ | ⟨hnone, heq⟩
      · exact .inl ⟨r', List.mem_cons_of_mem r hr', hroom, heq⟩
      · exact .inr ⟨List.forall_mem_cons.mpr ⟨hno, hnone⟩, heq⟩

end FreeBSDKern.Reserv
