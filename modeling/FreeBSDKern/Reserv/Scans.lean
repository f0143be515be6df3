import FreeBSDKern.Lib.Mask
import FreeBSDKern.Lib.Runs
import FreeBSDKern.Reserv.Contig

/-!
# What the Bit Scans Find

Dissolving a reservation gives its unused pages back a run at a time. `breakCalls`
are the calls it makes for that, and they are the maximal runs of clear bits of
the map the loop starts from, in order. The search for a run of pages finds a
reservation when there is one that has such a run, wherever in it the run starts.

## Main definitions

* `breakCalls`: The runs given back, as offset and length.
* `Counted`: The count of a reservation is that of its map.
* `GivenBack`: What dissolving a reservation gives back.
* `Suitable`: A run of pages that a request could have.

## Theorems

* `breakCalls_spec`: One run after the other.
* `fitsAddress_iff`: The address requirements in numbers.
* `bit_scans`: Both scans find what is there.
-/

namespace FreeBSDKern.Reserv

open Lib

/-- The runs of pages that `breakLoop` gives back, as it goes. -/
def breakCalls : Nat → Break → List (Nat × Nat)
  | 0, _ => []
  | n + 1, b =>
    let r := breakZero b
    if r.1.i = npopmap ∨ r.2 = 0 then []
    else
      let r' := breakRest r.1 (r.2 - 1)
      r'.2 :: if r'.1.i < npopmap then breakCalls n r'.1 else []

theorem breakLoop_calls (base n : Nat) : ∀ (b b' : Break) (free free' : Nat → Bool),
    breakLoop base n b free = some (b', free') →
    free' = (breakCalls n b).foldl (fun free c => physFree free (base + c.1) c.2) free := by
  induction n with
  | zero => exact fun _ _ _ _ h => nomatch h
  | succ n ih =>
    intro b b' free free' h
    rw [breakLoop_succ] at h
    rw [breakCalls]
    dsimp only at h ⊢
    by_cases hend : (breakZero b).1.i = npopmap
    · rw [if_pos hend, Option.some.injEq, Prod.mk.injEq] at h
      rw [if_pos (.inl hend)]
      exact h.2.symm
    rw [if_neg hend] at h
    by_cases hlo : (breakZero b).2 = 0
    · rw [if_pos hlo] at h
      cases h
    rw [if_neg hlo] at h
    rw [if_neg (not_or.mpr ⟨hend, hlo⟩), List.foldl_cons]
    split at h
    case isTrue hmore =>
      rw [if_pos hmore]
      exact ih _ _ _ _ h
    case isFalse hlast =>
      rw [if_neg hlast]
      rw [Option.some.injEq, Prod.mk.injEq] at h
      exact h.2.symm

/-- From a used page on, or from the start, the calls are the runs of unused
    pages. -/
theorem breakCalls_spec (orig : List (BitVec 64)) (n : Nat) : ∀ b : Break,
    At orig b (64 * b.i + b.hi) → b.i < 8 → b.hi < 64 → 512 < n + (64 * b.i + b.hi) →
    (64 * b.i + b.hi = 0 ∨ WordMap.bit orig (64 * b.i + b.hi) = true) →
    (∀ a k, (a, k) ∈ breakCalls n b ↔ 0 < k ∧ 64 * b.i + b.hi ≤ a ∧
      MaximalRun (fun q => !WordMap.bit orig q) 512 k a) ∧
    (breakCalls n b).Pairwise (fun c d => c.1 + c.2 ≤ d.1) := by
  induction n with
  | zero => exact fun b _ hi hhi hn => by omega
  | succ n ih =>
    intro b hat hi hhi hn hstart
    rcases breakZero_spec orig b hat hi hhi with ⟨b₁, lo, z, hres, hpz, hz, hused, hcase⟩
    have hskip : ∀ q, 64 * b.i + b.hi ≤ q → q < z → (!WordMap.bit orig q) = false := by
      intro q hlo hq
      rw [hused q hlo hq]
      rfl
    rw [breakCalls, hres]
    dsimp only
    rcases hcase with ⟨hend, hz512, -⟩ | ⟨hi₁, hlo, hzeq, hlo64, hzfree, hhi₁, hle, hat₁⟩
    · rw [if_pos (.inl hend)]
      refine ⟨fun a k => iff_of_false List.not_mem_nil ?_, List.Pairwise.nil⟩
      rintro ⟨hk, ha, hr⟩
      have hin := hr.1
      have hset := hr.2.1 a le_rfl (by omega)
      cases hset.symm.trans (hskip a ha (by omega))
    subst hzeq
    rcases breakRest_spec orig b₁ (lo - 1) hat₁ hi₁ hlo64 hhi₁
      (fun q h1 h2 => hused q (by omega) h2) hzfree with ⟨b', hrest, hzo, hgap, hat', hstop⟩
    have hnot : ¬ (b₁.i = npopmap ∨ lo = 0) := by
      rw [npopmap]
      omega
    rw [if_neg hnot, hrest, npopmap]
    dsimp only
    have hfirst : 64 * b₁.i + (lo - 1) = 0 ∨
        (!WordMap.bit orig (64 * b₁.i + (lo - 1) - 1)) = false := by
      by_cases hpos : 64 * b.i + b.hi < 64 * b₁.i + (lo - 1)
      · exact .inr (hskip _ (by omega) (by omega))
      rcases hstart with h0 | hset
      · exact .inl (by omega)
      · rw [show 64 * b.i + b.hi = 64 * b₁.i + (lo - 1) by omega, hzfree] at hset
        cases hset
    have hlast : 64 * b'.i + b'.hi = 512 ∨ (!WordMap.bit orig (64 * b'.i + b'.hi)) = false := by
      rcases hstop with h | h
      · exact .inl (by omega)
      · rw [h.2.2]
        exact .inr rfl
    have hend : (∀ a k, (a, k) ∈ (if b'.i < 8 then breakCalls n b' else []) ↔
        0 < k ∧ 64 * b'.i + b'.hi ≤ a ∧ MaximalRun (fun q => !WordMap.bit orig q) 512 k a) ∧
        (if b'.i < 8 then breakCalls n b' else []).Pairwise (fun c d => c.1 + c.2 ≤ d.1) := by
      rcases hstop with ⟨hi', hhi'⟩ | ⟨hi', hhi', hset⟩
      · rw [if_neg (by omega)]
        refine ⟨fun a k => iff_of_false List.not_mem_nil ?_, List.Pairwise.nil⟩
        rintro ⟨hk, ha, hr⟩
        have := hr.1
        omega
      · rw [if_pos hi']
        exact ih b' hat' hi' hhi' (by omega) (.inr hset)
    refine ⟨fun a k => ?_, List.pairwise_cons.mpr ⟨fun c hc => ?_, hend.2⟩⟩
    · rw [List.mem_cons, Prod.mk.injEq, hend.1]
      by_cases hk : 0 < k
      · rw [maximalRun_first hk hpz hzo (by omega) hskip
          (fun q h1 h2 => by rw [hgap q h1 h2]; rfl) hfirst hlast]
        simp only [hk, true_and]
      · simp only [hk, false_and, or_false, iff_false, not_and]
        omega
    have := ((hend.1 c.1 c.2).mp hc).2.1
    dsimp only
    omega

/-- An active reservation whose count is that of its map. -/
structure Counted (rv : Rv) : Prop where
  active : rv.object ≠ none
  len : rv.popmap.length = npopmap
  count : rv.popcnt = WordMap.population rv.popmap 0 npages0

/-- The calls of `vm_phys_free_contig` that dissolving a reservation makes, as
    offsets into it and lengths. -/
def vmReservBreakCalls (s : State) (r : Nat) (m : Option Nat) : List (Nat × Nat) :=
  match breakStart (s.rv r) r m with
  | none => []
  | some (popmap, popcnt) => breakCalls (npages0 + 1) ⟨popmap, popcnt, 0, 0⟩

/-- A page that goes back to the allocator: clear in the map, and not `m`. -/
def unused (s : State) (r : Nat) (m : Option Nat) (q : Nat) : Bool :=
  !(popmapIsSet (s.rv r).popmap q || decide (m = some (r * npages0 + q)))

/-- The runs of unused pages have been given back, each page once, and the map is
    empty. -/
structure GivenBack (s : State) (r : Nat) (m : Option Nat) (s' : State) : Prop where
  free : s'.free = (vmReservBreakCalls s r m).foldl
    (fun free c => physFree free (r * npages0 + c.1) c.2) s.free
  runs : ∀ a k, (a, k) ∈ vmReservBreakCalls s r m ↔ 0 < k ∧ MaximalRun (unused s r m) npages0 k a
  once : (vmReservBreakCalls s r m).Pairwise (fun c d => c.1 + c.2 ≤ d.1)
  popmap : (s'.rv r).popmap = List.replicate npopmap 0#64
  popcnt : (s'.rv r).popcnt = 0

/-- Dissolving a reservation that is off the queue. -/
theorem vmReservBreak_givenBack (s : State) (r : Nat) (m : Option Nat) (h : Counted (s.rv r))
    (hflag : (s.rv r).inpartpopq = false)
    (hm : ∀ p, m = some p → r * npages0 ≤ p ∧ p < r * npages0 + npages0 ∧
      popmapIsSet (s.rv r).popmap (p - r * npages0) = false) :
    ∃ s', vmReservBreak s r m = some s' ∧ GivenBack s r m s' := by
  rcases breakStart_spec (s.rv r) r m h.len h.count hm with ⟨popmap, hlen, hbits, hstart⟩
  rcases vmReservBreak_eq s r m h.active hflag hlen hstart with ⟨b, hloop, heq⟩
  have hcalls : vmReservBreakCalls s r m =
      breakCalls (npages0 + 1) ⟨popmap, WordMap.population popmap 0 512, 0, 0⟩ := by
    rw [vmReservBreakCalls, hstart]
  have hspec := breakCalls_spec popmap (npages0 + 1) ⟨popmap, WordMap.population popmap 0 512, 0, 0⟩
    ⟨hlen, fun q _ => by simp, rfl⟩ (Nat.zero_lt_succ 7) (Nat.zero_lt_succ 63) (Nat.lt_succ_self 512)
    (.inl rfl)
  rw [← hcalls] at hspec
  have hunused : ∀ q < npages0, (!WordMap.bit popmap q) = unused s r m q := by
    intro q hq
    rw [hbits q hq]
    rfl
  refine ⟨_, heq, ?_, fun a k => ?_, hspec.2, ?_, ?_⟩
  · rw [hcalls, ← breakLoop_calls _ _ _ _ _ _ hloop]
  · rw [hspec.1]
    refine and_congr_right (fun hk => ?_)
    exact (and_iff_right zero_le).trans (maximalRun_congr hunused hk)
  all_goals simp only [State.setRv, Function.update_self]

/-- Consecutive unpopulated pages that a request could have, from page `a` of the
    reservation on. -/
structure Suitable (s : State) (req : Request) (r a : Nat) : Prop where
  inside : a + req.npages ≤ npages0
  unpopulated : ∀ q, a ≤ q → q < a + req.npages → popmapIsSet (s.rv r).popmap q = false
  low : req.low.toNat ≤ (r * npages0 + a) * 2 ^ pageShift
  high : (r * npages0 + a) * 2 ^ pageShift + req.npages * 2 ^ pageShift ≤ req.high.toNat
  aligned : req.alignment.toNat ∣ (r * npages0 + a) * 2 ^ pageShift
  /-- The first and the last byte are on the same side of every boundary. -/
  together : req.boundary ≠ 0#64 → (r * npages0 + a) * 2 ^ pageShift / req.boundary.toNat =
    ((r * npages0 + a) * 2 ^ pageShift + req.npages * 2 ^ pageShift - 1) / req.boundary.toNat

/-- A power of two. -/
def Powerof2 (x : BitVec 64) : Prop := ∃ k, x.toNat = 2 ^ k

theorem fitsAddress_iff {pa size : Nat} {alignment boundary : BitVec 64} (hpos : 0 < size)
    (hlt : pa + size < 2 ^ 64) (hal : Powerof2 alignment)
    (hbd : boundary = 0#64 ∨ Powerof2 boundary) :
    fitsAddress (BitVec.ofNat 64 pa) (BitVec.ofNat 64 size) alignment boundary = true ↔
      alignment.toNat ∣ pa ∧
        (boundary ≠ 0#64 → pa / boundary.toNat = (pa + size - 1) / boundary.toNat) := by
  have hpa : (BitVec.ofNat 64 pa).toNat = pa := Nat.mod_eq_of_lt (by omega)
  have hend : (BitVec.ofNat 64 pa + BitVec.ofNat 64 size - 1#64).toNat = pa + size - 1 := by
    rw [← BitVec.ofNat_add, BitVec.toNat_sub, BitVec.toNat_ofNat, BitVec.toNat_ofNat]
    omega
  rw [fitsAddress, decide_eq_true_eq]
  refine and_congr ?_ ?_
  · rcases hal with ⟨k, hk⟩
    rw [and_sub_one_eq_zero hk, hk, hpa]
  by_cases hzero : boundary = 0#64
  · subst hzero
    simp
  rcases hbd.resolve_left hzero with ⟨k, hk⟩
  rw [xor_and_not_eq_zero hk, hk, hpa, hend]
  exact (imp_iff_right hzero).symm

/-- The search looks for suitable pages. -/
theorem room_iff {s : State} {req : Request} (hpos : 0 < req.npages) (hal : Powerof2 req.alignment)
    (hbd : req.boundary = 0#64 ∨ Powerof2 req.boundary) (r a : Nat) :
    Room (s.rv r).popmap (r * npages0) req a ↔ Suitable s req r a := by
  have hfits := fun (hhigh : (r * npages0 + a) * 2 ^ pageShift + req.npages * 2 ^ pageShift ≤
    req.high.toNat) => @fitsAddress_iff ((r * npages0 + a) * 2 ^ pageShift) _ _ _
      (Nat.mul_pos hpos (Nat.two_pow_pos pageShift)) (hhigh.trans_lt req.high.isLt) hal hbd
  constructor
  · rintro ⟨hin, hun, hlow, hhigh, hfit⟩
    exact ⟨hin, hun, hlow, hhigh, ((hfits hhigh).mp hfit).1, ((hfits hhigh).mp hfit).2⟩
  · rintro ⟨hin, hun, hlow, hhigh, hal', hbd'⟩
    exact ⟨hin, hun, hlow, hhigh, (hfits hhigh).mpr ⟨hal', hbd'⟩⟩

/-- A reservation on the queue. -/
structure Queued (rv : Rv) : Prop extends Counted rv where
  flag : rv.inpartpopq = true
  some : 0 < rv.popcnt

theorem reclaimContig_finds (s : State) (hq : ∀ r ∈ s.partpop, Queued (s.rv r)) (req : Request)
    (hpos : 0 < req.npages) (hal : Powerof2 req.alignment)
    (hbd : req.boundary = 0#64 ∨ Powerof2 req.boundary) :
    ∃ broken s', reclaimContig s req = some (broken, s') ∧
      (broken = true ↔ ∃ r ∈ s.partpop, ∃ a, Suitable s req r a) ∧
      (broken = true → ∃ r ∈ s.partpop, vmReservReclaim s r = some s') ∧
      (broken = false → s' = s) := by
  rw [reclaimContig]
  by_cases hbig : req.npages > npages0 - 1
  · rw [if_pos hbig]
    refine ⟨false, s, rfl, ⟨nofun, fun ⟨r, hr, a, ha⟩ => ?_⟩, nofun, fun _ => rfl⟩
    -- No reservation on the queue has all of its pages unused.
    have hempty : WordMap.population (s.rv r).popmap 0 npages0 = 0 := by
      have hin := ha.inside
      rw [WordMap.population_eq_zero]
      exact fun i _ hi => ha.unpopulated i (by omega) (by omega)
    have hsome := (hq r hr).some
    rw [(hq r hr).count, hempty] at hsome
    exact absurd hsome (lt_irrefl _)
  rw [if_neg hbig]
  simp only [← room_iff hpos hal hbd]
  rcases reclaimContigLoop_spec s req hpos s.partpop with ⟨r, hr, hroom, heq⟩ | ⟨hnone, heq⟩
  · have hrv := unqueue_rv s r
    have hcnt : Counted ((unqueue s r).rv r) := by
      rw [hrv]
      exact ⟨(hq r hr).active, (hq r hr).len, (hq r hr).count⟩
    rcases vmReservBreak_givenBack (unqueue s r) r none hcnt (by rw [hrv]) nofun
      with ⟨s', hbreak, -⟩
    have hreclaim : vmReservReclaim s r = some s' := by
      rw [vmReservReclaim, if_neg (by rw [(hq r hr).flag]; exact nofun), hbreak]
    exact ⟨true, s', by rw [heq, hreclaim]; rfl, iff_of_true rfl ⟨r, hr, hroom⟩,
      fun _ => ⟨r, hr, hreclaim⟩, nofun⟩
  · exact ⟨false, s, heq, ⟨nofun, fun ⟨r, hr, ha⟩ => absurd ha (hnone r hr)⟩, nofun, fun _ => rfl⟩

/-- Dissolving a reservation gives back exactly its runs of unused pages, and a
    search for contiguous pages dissolves one exactly when the queue has suitable
    pages. -/
theorem bit_scans :
    (∀ (s : State) (r : Nat) (m : Option Nat), Counted (s.rv r) → (s.rv r).inpartpopq = false →
      (∀ p, m = some p → r * npages0 ≤ p ∧ p < r * npages0 + npages0 ∧
        popmapIsSet (s.rv r).popmap (p - r * npages0) = false) →
      ∃ s', vmReservBreak s r m = some s' ∧ GivenBack s r m s') ∧
    ∀ (s : State) (req : Request), (∀ r ∈ s.partpop, Queued (s.rv r)) → 0 < req.npages →
      Powerof2 req.alignment → (req.boundary = 0#64 ∨ Powerof2 req.boundary) →
      ∃ broken s', reclaimContig s req = some (broken, s') ∧
        (broken = true ↔ ∃ r ∈ s.partpop, ∃ a, Suitable s req r a) ∧
        (broken = true → ∃ r ∈ s.partpop, vmReservReclaim s r = some s') ∧
        (broken = false → s' = s) :=
  ⟨vmReservBreak_givenBack, fun s req hq hpos hal hbd => reclaimContig_finds s hq req hpos hal hbd⟩

/-- A reservation off the queue and one on it, with the pages around two word
    boundaries in use. -/
def twoReservs : State where
  rv := fun r => ⟨some 1, 0#64, 4, r == 0,
    [0x8000000000000000#64, 1#64, 0x8000000000000000#64, 1#64, 0#64, 0#64, 0#64, 0#64]⟩
  partpop := [0]
  rvq := fun _ => [0, 1]
  psind := fun _ => 0
  free := fun _ => false

theorem twoReservs_counted (r : Nat) : Counted (twoReservs.rv r) := by
  have hcount : (twoReservs.rv 0).popcnt = WordMap.population (twoReservs.rv 0).popmap 0 npages0 := by
    decide +kernel
  exact ⟨nofun, rfl, hcount⟩

theorem bit_scans_two : (∃ s', vmReservBreak twoReservs 1 (some 577) = some s' ∧
      GivenBack twoReservs 1 (some 577) s') ∧
    ∃ broken s', reclaimContig twoReservs ⟨62, 0#64, BitVec.allOnes 64, 4096#64, 0#64⟩ =
        some (broken, s') ∧
      (broken = true ↔ ∃ r ∈ twoReservs.partpop, ∃ a,
        Suitable twoReservs ⟨62, 0#64, BitVec.allOnes 64, 4096#64, 0#64⟩ r a) := by
  refine ⟨bit_scans.1 twoReservs 1 (some 577) (twoReservs_counted 1) rfl (fun p hp => ?_), ?_⟩
  · rw [← Option.some.inj hp]
    decide
  rcases bit_scans.2 twoReservs ⟨62, 0#64, BitVec.allOnes 64, 4096#64, 0#64⟩ (fun r hr => by
    rw [List.mem_singleton.mp hr]
    exact ⟨twoReservs_counted 0, rfl, by decide⟩) (by decide) ⟨12, rfl⟩ (.inl rfl) with
    ⟨broken, s', hres, hiff, -⟩
  exact ⟨broken, s', hres, hiff⟩

end FreeBSDKern.Reserv
