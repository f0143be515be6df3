import FreeBSDKern.Reserv.Model

/-!
# Dissolving a Population Map

The loop of `vm_reserv_break` goes through the map once, a run at a time: it
clears a run of used pages while counting it out of the population, and returns
the run of free pages behind it to the allocator. `At` says where it stands: below
the position everything is cleared and every free page has been returned, from the
position on the map is as it was.

## Main definitions

* `At`: The map and the count when the loop has come to a position.
* `freedBelow`: The free lists when it has.

## Theorems

* `skipFull_spec`, `nextOne_spec`: The word loops.
* `breakZero_spec`, `breakClear_at`: The first half of a round.
* `breakLoop_spec`: The loop ends with an empty map, a count of zero, and all free
  pages returned.
-/

namespace FreeBSDKern.Reserv

open Lib

theorem getLsbD_below (n j : Nat) (hn : n < 64) : (below n).getLsbD j = decide (j < n) := by
  have hpow : 2 ^ n < 2 ^ 64 := Nat.pow_lt_pow_right (by decide) hn
  have hpos : 0 < 2 ^ n := Nat.pow_pos (by decide)
  have hnat : (below n).toNat = 2 ^ n - 1 := by
    have hshift : (1#64 <<< n).toNat = 2 ^ n := by
      rw [BitVec.toNat_shiftLeft, BitVec.toNat_ofNat, Nat.shiftLeft_eq]
      omega
    rw [below, BitVec.toNat_sub, hshift, BitVec.toNat_ofNat]
    omega
  rw [BitVec.getLsbD, hnat, Nat.testBit_two_pow_sub_one]

variable (map orig : List (BitVec 64))

theorem word_bits (i k : Nat) (hk : k < 64) :
    (WordMap.word map i).getLsbD k = WordMap.bit map (64 * i + k) := by
  rw [Nat.mul_comm]
  exact (WordMap.bit_mul_add map i k hk).symm

/-- The next clear bit of a word from bit `hi` on. -/
theorem ffs_from (i hi : Nat) (hhi : hi < 64) :
    (WordMap.ffs (~~~(below hi ||| WordMap.word map i)) = 0 ∧
        ∀ q, 64 * i + hi ≤ q → q < 64 * i + 64 → WordMap.bit map q = true) ∨
      ∃ k, k < 64 ∧ WordMap.ffs (~~~(below hi ||| WordMap.word map i)) = k + 1 ∧ hi ≤ k ∧
        WordMap.bit map (64 * i + k) = false ∧
        ∀ q, 64 * i + hi ≤ q → q < 64 * i + k → WordMap.bit map q = true := by
  have hread : ∀ k, k < 64 → (~~~(below hi ||| WordMap.word map i)).getLsbD k =
      (decide (64 * i + hi ≤ 64 * i + k) && !WordMap.bit map (64 * i + k)) := by
    intro k hk
    rw [BitVec.getLsbD_not, BitVec.getLsbD_or, getLsbD_below _ _ hhi, word_bits _ _ _ hk]
    by_cases hle : hi ≤ k
    · simp [hk, hle, show ¬ k < hi by omega]
    · simp [hk, show k < hi by omega]
  have hset : ∀ q, 64 * i + hi ≤ q → (decide (64 * i + hi ≤ q) && !WordMap.bit map q) = false →
      WordMap.bit map q = true := by
    intro q hq h
    rwa [decide_eq_true hq, Bool.true_and, Bool.not_eq_false'] at h
  rcases WordMap.ffs_reads (f := fun q => decide (64 * i + hi ≤ q) && !WordMap.bit map q) _ _ hread
    with ⟨hzero, hrest⟩ | ⟨k, hk, hffs, hbit, hbelow⟩
  · exact .inl ⟨hzero, fun q hlo hq => hset q hlo (hrest q (by omega) hq)⟩
  · rw [Bool.and_eq_true, decide_eq_true_eq, Bool.not_eq_true'] at hbit
    exact .inr ⟨k, hk, hffs, by omega, hbit.2, fun q hlo hq => hset q hlo (hbelow q (by omega) hq)⟩

theorem ffs_not (i : Nat) : (WordMap.ffs (~~~(WordMap.word map i)) = 0 ∧
        ∀ q, 64 * i ≤ q → q < 64 * i + 64 → WordMap.bit map q = true) ∨
      ∃ k, k < 64 ∧ WordMap.ffs (~~~(WordMap.word map i)) = k + 1 ∧
        WordMap.bit map (64 * i + k) = false ∧
        ∀ q, 64 * i ≤ q → q < 64 * i + k → WordMap.bit map q = true := by
  have hbelow : below 0 ||| WordMap.word map i = WordMap.word map i := by simp [below]
  have := ffs_from map i 0 (by decide)
  rw [hbelow] at this
  simpa only [Nat.add_zero, Nat.zero_le, true_and] using this

/-- Setting a word writes the bits of its range. -/
theorem bit_set (i : Nat) (x : BitVec 64) (h : i < map.length) (q : Nat) :
    WordMap.bit (map.set i x) q = if q / 64 = i then x.getLsbD (q % 64) else WordMap.bit map q := by
  rw [WordMap.bit, WordMap.word_set map i x h]
  split
  all_goals rfl

/-- The full words from `i` on are cleared and counted. -/
theorem skipFull_spec (n : Nat) : ∀ (i : Nat) (popmap : List (BitVec 64)) (popcnt : Int),
    popmap.length = i + n → ∃ (i' : Nat) (popmap' : List (BitVec 64)),
      skipFull n i popmap popcnt = (i', popmap', popcnt - 64 * (i' - i)) ∧
      i ≤ i' ∧ i' ≤ i + n ∧ popmap'.length = popmap.length ∧
      (∀ q, 64 * i ≤ q → q < 64 * i' → WordMap.bit popmap q = true) ∧ (∀ q, WordMap.bit popmap' q =
        if 64 * i ≤ q ∧ q < 64 * i' then false else WordMap.bit popmap q) ∧
      (i' < i + n → WordMap.ffs (~~~(WordMap.word popmap' i')) ≠ 0) := by
  induction n with
  | zero =>
    intro i popmap popcnt hlen
    refine ⟨i, popmap, by simp [skipFull], Nat.le_refl i, Nat.le_refl i, rfl,
      fun q h1 h2 => by omega, fun q => ?_, fun h => by omega⟩
    rw [if_neg (by omega)]
  | succ n ih =>
    intro i popmap popcnt hlen
    rw [skipFull]
    rcases ffs_not popmap i with ⟨hfull, hword⟩ | ⟨k, hk, hffs, hbit, -⟩
    · rw [if_pos hfull]
      rcases ih (i + 1) (popmap.set i 0#64) (popcnt - nbpopmap)
        (by rw [List.length_set]; omega) with
        ⟨i', popmap', hres, hle, hle', hlen', hones, hbits, hstop⟩
      have hset := bit_set popmap i 0#64 (by omega)
      refine ⟨i', popmap', ?_, by omega, by omega, by rw [hlen', List.length_set], ?_, ?_,
        fun h => hstop (by omega)⟩
      · rw [hres, nbpopmap]
        refine congrArg (fun x => (i', popmap', x)) ?_
        omega
      · intro q hlo hhi
        by_cases hq : q < 64 * i + 64
        · exact hword q hlo hq
        · have := hones q (by omega) hhi
          rwa [hset, if_neg (by omega)] at this
      intro q
      rw [hbits q, hset]
      by_cases hq : q / 64 = i
      · rw [if_pos hq, if_pos (show 64 * i ≤ q ∧ q < 64 * i' by omega), if_neg (by omega),
          BitVec.getLsbD_zero]
      rw [if_neg hq]
      by_cases hin : 64 * (i + 1) ≤ q ∧ q < 64 * i'
      · rw [if_pos hin, if_pos (by omega)]
      · rw [if_neg hin, if_neg (by omega)]
    rw [if_neg (by omega)]
    refine ⟨i, popmap, by simp, Nat.le_refl i, by omega, rfl, fun q h1 h2 => by omega,
      fun q => ?_, fun _ => by rw [hffs]; exact Nat.succ_ne_zero k⟩
    rw [if_neg (by omega)]

/-- A scan from `p` on ends at `z`: at the first place where `f` is set, given by
    its word and its position in it counted from one, or at the end of the map. -/
structure Scan (f : Nat → Bool) (p : Nat) (r : Nat × Nat) (z : Nat) : Prop where
  after : p ≤ z
  skipped : ∀ q, p ≤ q → q < z → f q = false
  stop : r.1 = 8 ∧ r.2 = 0 ∧ z = 512 ∨
    r.1 < 8 ∧ 0 < r.2 ∧ r.2 ≤ 64 ∧ z = 64 * r.1 + (r.2 - 1) ∧ f z = true

theorem Scan.of_later {f : Nat → Bool} {p p' z : Nat} {r : Nat × Nat} (h : Scan f p' r z)
    (hp : p ≤ p') (hskip : ∀ q, p ≤ q → q < p' → f q = false) : Scan f p r z := by
  refine ⟨hp.trans h.after, fun q hlo hq => ?_, h.stop⟩
  by_cases hq' : q < p'
  · exact hskip q hlo hq'
  · exact h.skipped q (by omega) hq

/-- A scan that has no words left. -/
theorem scan_end (f : Nat → Bool) {i : Nat} (hi : i + 0 = npopmap) : Scan f (64 * i) (i, 0) 512 := by
  rw [npopmap] at hi
  exact ⟨by omega, fun q h1 h2 => by omega, .inl ⟨hi, rfl, rfl⟩⟩

/-- The next set bit: all between is clear. -/
theorem nextOne_spec (popmap : List (BitVec 64)) (n : Nat) : ∀ i, i + n = npopmap →
    ∃ z, Scan (WordMap.bit popmap) (64 * i) (nextOne popmap n i) z := by
  induction n with
  | zero => exact fun i hi => ⟨512, scan_end _ hi⟩
  | succ n ih =>
    intro i hn
    rw [nextOne]
    rcases WordMap.ffs_reads _ (64 * i) (word_bits popmap i) with
      ⟨hzero, hword⟩ | ⟨k, hk, hffs, hbit, hbelow⟩
    · rw [if_pos hzero]
      rcases ih (i + 1) (by omega) with ⟨z, hz⟩
      exact ⟨z, hz.of_later (by omega) hword⟩
    rw [if_neg (by omega), hffs]
    rw [npopmap] at hn
    exact ⟨64 * i + k, Nat.le_add_right _ k, hbelow,
      .inr ⟨by dsimp only; omega, Nat.succ_pos k, hk, rfl, hbit⟩⟩

/-- The loop has come to position `p`. -/
structure At (orig : List (BitVec 64)) (b : Break) (p : Nat) : Prop where
  len : b.popmap.length = 8
  bits : ∀ q, q < 512 → WordMap.bit b.popmap q = (decide (p ≤ q) && WordMap.bit orig q)
  count : b.popcnt = WordMap.population orig p (512 - p)

/-- From the position on the map is as it was. -/
theorem At.read {orig : List (BitVec 64)} {b : Break} {p q : Nat} {x : Bool} (h : At orig b p)
    (hlo : p ≤ q) (hq : q < 512) (hx : WordMap.bit b.popmap q = x) : WordMap.bit orig q = x := by
  rw [← hx, h.bits q hq, decide_eq_true hlo, Bool.true_and]

/-- The free lists with the free pages below position `p` returned. -/
def freedBelow (base : Nat) (free : Nat → Bool) (orig : List (BitVec 64)) (p : Nat) : Nat → Bool :=
  fun x => free x || (decide (base ≤ x) && decide (x < base + p) && !WordMap.bit orig (x - base))

/-- The count without a run of used pages. -/
theorem population_drop (p z : Nat) (hz : z ≤ 512) (hp : p ≤ z)
    (h : ∀ q, p ≤ q → q < z → WordMap.bit orig q = true) :
    (WordMap.population orig p (512 - p) : Int) - (z - p) =
      WordMap.population orig z (512 - z) := by
  have hsplit : 512 - p = (z - p) + (512 - z) := by omega
  rw [hsplit, WordMap.population_add, WordMap.population_full orig p (z - p) (fun q h1 h2 =>
    h q h1 (by omega)), show p + (z - p) = z by omega]
  omega

/-- What the first half of a round finds: the next free page, or the end. -/
theorem breakZero_spec (b : Break) (hat : At orig b (64 * b.i + b.hi)) (hi : b.i < 8)
    (hhi : b.hi < 64) : ∃ b' lo z, breakZero b = (b', lo) ∧ 64 * b.i + b.hi ≤ z ∧ z ≤ 512 ∧
      (∀ q, 64 * b.i + b.hi ≤ q → q < z → WordMap.bit orig q = true) ∧
      ((b'.i = npopmap ∧ z = 512 ∧ At orig b' 512) ∨
        (b'.i < 8 ∧ lo ≠ 0 ∧ z = 64 * b'.i + (lo - 1) ∧ lo - 1 < 64 ∧
          WordMap.bit orig z = false ∧ b'.hi ≤ lo - 1 ∧ 64 * b.i + b.hi ≤ 64 * b'.i + b'.hi ∧
          At orig b' (64 * b'.i + b'.hi))) := by
  rw [breakZero]
  dsimp only
  rcases ffs_from b.popmap b.i b.hi hhi with ⟨hzero, hrest⟩ | ⟨k, hk, hffs, hle, hbit, hbelow⟩
  · rw [if_pos hzero]
    have hset := bit_set b.popmap b.i 0#64 (by rw [hat.len]; omega)
    rcases skipFull_spec (npopmap - (b.i + 1)) (b.i + 1) (b.popmap.set b.i 0#64)
      (b.popcnt - (nbpopmap - b.hi)) (by rw [List.length_set, hat.len, npopmap]; omega) with
      ⟨i', popmap', hres, hle, hle', hlen, hones, hbits, hstop⟩
    have h8 : b.i + 1 + (npopmap - (b.i + 1)) = 8 := by
      rw [npopmap]
      omega
    rw [h8] at hle' hstop
    rw [hres]
    dsimp only
    have hused : ∀ q, 64 * b.i + b.hi ≤ q → q < 64 * i' → WordMap.bit orig q = true := by
      intro q hlo hhi'
      by_cases hq : q < 64 * b.i + 64
      · -- The rest of the word is in use.
        exact hat.read hlo (by omega) (hrest q hlo hq)
      have := hones q (by omega) hhi'
      rw [hset, if_neg (by omega), hat.bits q (by omega), Bool.and_eq_true] at this
      exact this.2
    have hat' : At orig ⟨popmap', b.popcnt - (nbpopmap - b.hi) - 64 * ((i' : Int) - (b.i + 1 : Nat)),
        i', 0⟩ (64 * i') := by
      refine ⟨by dsimp only; rw [hlen, List.length_set, hat.len], fun q hq => ?_, ?_⟩
      · dsimp only
        rw [hbits q, hset]
        by_cases hin : 64 * (b.i + 1) ≤ q ∧ q < 64 * i'
        · rw [if_pos hin, decide_eq_false (by omega)]
          rfl
        rw [if_neg hin]
        by_cases hq' : q / 64 = b.i
        · rw [if_pos hq', BitVec.getLsbD_zero, decide_eq_false (by omega)]
          rfl
        rw [if_neg hq', hat.bits q hq]
        by_cases hge : 64 * i' ≤ q
        · rw [decide_eq_true hge, decide_eq_true (by omega)]
        · rw [decide_eq_false hge, decide_eq_false (by omega)]
      dsimp only
      rw [← population_drop orig (64 * b.i + b.hi) (64 * i') (by omega) (by omega) hused,
        ← hat.count, nbpopmap]
      push_cast
      omega
    by_cases hend : i' = 8
    · subst hend
      exact ⟨_, _, 512, rfl, by omega, by omega, hused, .inl ⟨rfl, rfl, hat'⟩⟩
    rcases ffs_not popmap' i' with ⟨hnone, -⟩ | ⟨k, hk, hffs, hbit, hbelow⟩
    · exact absurd hnone (hstop (by omega))
    refine ⟨_, _, 64 * i' + k, rfl, by omega, by omega, fun q hlo hhi' => ?_, .inr ⟨by
      dsimp only; omega, by rw [hffs]; omega, by rw [hffs]; rfl, by rw [hffs]; exact hk,
      hat'.read (by omega) (by omega) hbit, by dsimp only; omega, by dsimp only; omega, hat'⟩⟩
    by_cases hq : q < 64 * i'
    · exact hused q hlo hq
    · exact hat'.read (by omega) (by omega) (hbelow q (by omega) hhi')
  · rw [if_neg (by omega)]
    exact ⟨b, _, 64 * b.i + k, rfl, by omega, by omega, fun q hlo hhi' =>
      hat.read hlo (by omega) (hbelow q hlo hhi'), .inr ⟨hi, by omega, by rw [hffs]; rfl,
      by rw [hffs]; exact hk, hat.read (by omega) (by omega) hbit, by rw [hffs]; exact hle,
      le_rfl, hat⟩⟩

/-- Clearing the run of used pages. -/
theorem breakClear_at (b : Break) (lo : Nat) (hat : At orig b (64 * b.i + b.hi)) (hi : b.i < 8)
    (hlo : lo < 64) (hhi : b.hi ≤ lo)
    (hused : ∀ q, 64 * b.i + b.hi ≤ q → q < 64 * b.i + lo → WordMap.bit orig q = true) :
    (breakClear b lo).i = b.i ∧ At orig (breakClear b lo) (64 * b.i + lo) := by
  rw [breakClear]
  by_cases hpos : lo > 0
  · rw [if_pos hpos]
    refine ⟨rfl, by dsimp only; rw [List.length_set, hat.len], fun q hq => ?_, ?_⟩
    · dsimp only
      rw [bit_set _ _ _ (by rw [hat.len]; omega)]
      by_cases hq' : q / 64 = b.i
      · rw [if_pos hq', BitVec.getLsbD_and, BitVec.getLsbD_not, getLsbD_below _ _ hlo,
          word_bits _ _ _ (by omega), show 64 * b.i + q % 64 = q by omega, hat.bits q hq,
          decide_eq_true (show q % 64 < 64 by omega), Bool.true_and]
        by_cases hge : 64 * b.i + lo ≤ q
        · rw [decide_eq_true hge, decide_eq_true (by omega), decide_eq_false (by omega)]
          simp
        · rw [decide_eq_false hge, decide_eq_true (show q % 64 < lo by omega)]
          simp
      rw [if_neg hq', hat.bits q hq]
      by_cases hge : 64 * b.i + lo ≤ q
      · rw [decide_eq_true hge, decide_eq_true (by omega)]
      · rw [decide_eq_false hge, decide_eq_false (by omega)]
    dsimp only
    rw [← population_drop orig (64 * b.i + b.hi) (64 * b.i + lo) (by omega) (by omega) hused,
      ← hat.count]
    push_cast
    omega
  rw [if_neg hpos]
  have h0 : b.hi = lo := by omega
  exact ⟨rfl, h0 ▸ hat⟩

theorem freedBelow_run (base : Nat) (free : Nat → Bool) (orig : List (BitVec 64)) (p z o : Nat)
    (hp : p ≤ z) (hz : z ≤ o) (hused : ∀ q, p ≤ q → q < z → WordMap.bit orig q = true)
    (hfree : ∀ q, z ≤ q → q < o → WordMap.bit orig q = false) :
    physFree (freedBelow base free orig p) (base + z) (o - z) = freedBelow base free orig o := by
  ext x
  simp only [physFree, freedBelow]
  by_cases hx : base ≤ x
  · rw [decide_eq_true hx, Bool.true_and, Bool.true_and]
    by_cases h1 : x < base + p
    · simp [h1, show x < base + o by omega, show ¬ base + z ≤ x by omega]
    by_cases h2 : x < base + z
    · simp [h1, show ¬ base + z ≤ x by omega, show x < base + o by omega,
        hused (x - base) (by omega) (by omega)]
    by_cases h3 : x < base + o
    · simp [h1, show base + z ≤ x by omega, show x < base + z + (o - z) by omega, h3,
        hfree (x - base) (by omega) (by omega)]
    · simp [h1, h3, show ¬ x < base + z + (o - z) by omega]
  · simp [hx, show ¬ base + z ≤ x by omega]

/-- The second half of a round: where the loop stands after it, and the run of
    unused pages from position `lo` of the word on. -/
def breakRest (b : Break) (lo : Nat) : Break × Nat × Nat :=
  let b := breakClear b lo
  let z := nbpopmap * b.i + lo
  let one := nextOne b.popmap (npopmap - b.i) b.i
  let hi := if one.1 ≠ npopmap then one.2 - 1 else one.2
  ({ b with i := one.1, hi := hi }, z, nbpopmap * one.1 + hi - z)

/-- The run of unused pages ends at a used one, or at the end of the map. -/
theorem breakRest_spec (b : Break) (lo : Nat) (hat : At orig b (64 * b.i + b.hi)) (hi : b.i < 8)
    (hlo : lo < 64) (hhi : b.hi ≤ lo)
    (hused : ∀ q, 64 * b.i + b.hi ≤ q → q < 64 * b.i + lo → WordMap.bit orig q = true)
    (hclear : WordMap.bit orig (64 * b.i + lo) = false) :
    ∃ b', breakRest b lo = (b', 64 * b.i + lo, 64 * b'.i + b'.hi - (64 * b.i + lo)) ∧
      64 * b.i + lo < 64 * b'.i + b'.hi ∧
      (∀ q, 64 * b.i + lo ≤ q → q < 64 * b'.i + b'.hi → WordMap.bit orig q = false) ∧
      At orig b' (64 * b'.i + b'.hi) ∧ (b'.i = 8 ∧ b'.hi = 0 ∨
        b'.i < 8 ∧ b'.hi < 64 ∧ WordMap.bit orig (64 * b'.i + b'.hi) = true) := by
  rcases breakClear_at orig b lo hat hi hlo hhi hused with ⟨hi₂, hat₂⟩
  rw [breakRest]
  generalize breakClear b lo = b₂ at hi₂ hat₂
  rw [← hi₂] at hat₂ hclear hi ⊢
  rcases nextOne_spec b₂.popmap (npopmap - b₂.i) b₂.i (by rw [npopmap]; omega) with ⟨o, hscan⟩
  generalize nextOne b₂.popmap (npopmap - b₂.i) b₂.i = one at hscan
  have hstop := hscan.stop
  have hnpop : npopmap = 8 := rfl
  have ho : 64 * one.1 + (if one.1 ≠ npopmap then one.2 - 1 else one.2) = o := by
    split
    all_goals omega
  have hset : one.1 < 8 → WordMap.bit orig o = true ∧ 64 * b₂.i + lo < o := by
    intro hlt
    have hone : WordMap.bit b₂.popmap o = true := by
      rcases hstop with h | h
      · omega
      · exact h.2.2.2.2
    rw [hat₂.bits o (by omega), Bool.and_eq_true, decide_eq_true_eq] at hone
    -- The page found free is not the next one in use.
    refine ⟨hone.2, lt_of_le_of_ne hone.1 (fun he => ?_)⟩
    rw [he, hone.2] at hclear
    cases hclear
  have hgap : ∀ q, 64 * b₂.i + lo ≤ q → q < o → WordMap.bit orig q = false :=
    fun q hlo' hq => hat₂.read hlo' (by omega) (hscan.skipped q (by omega) hq)
  have hzo : 64 * b₂.i + lo < o := by
    rcases hstop with h | h
    · omega
    · exact (hset h.1).2
  refine ⟨_, rfl, ?_, ?_, ⟨hat₂.len, fun q hq => ?_, ?_⟩, ?_⟩
  all_goals simp only [ho]
  · exact hzo
  · exact hgap
  · rw [hat₂.bits q hq]
    by_cases hge : o ≤ q
    · rw [decide_eq_true hge, decide_eq_true (by omega)]
    rw [decide_eq_false hge, Bool.false_and]
    by_cases hz' : 64 * b₂.i + lo ≤ q
    · rw [hgap q hz' (by omega), Bool.and_false]
    · rw [decide_eq_false hz', Bool.false_and]
  · have hsplit : 512 - (64 * b₂.i + lo) = (o - (64 * b₂.i + lo)) + (512 - o) := by omega
    rw [hat₂.count, hsplit, WordMap.population_add,
      (WordMap.population_eq_zero orig _ _).mpr (fun q h1 h2 => hgap q h1 (by omega)),
      Nat.add_sub_cancel' hzo.le, Nat.zero_add]
  rcases hstop with h | h
  · rw [if_neg (by omega)]
    exact .inl ⟨h.1, h.2.1⟩
  · rw [if_pos (by omega)]
    exact .inr ⟨h.1, by omega, (hset h.1).1⟩

theorem breakLoop_succ (base n : Nat) (b : Break) (free : Nat → Bool) :
    breakLoop base (n + 1) b free = let r := breakZero b
      if r.1.i = npopmap then some (r.1, free)
      else if r.2 = 0 then none
      else
        let r' := breakRest r.1 (r.2 - 1)
        let free := physFree free (base + r'.2.1) r'.2.2
        if r'.1.i < npopmap then breakLoop base n r'.1 free else some (r'.1, free) := rfl

/-- The loop goes through the map once. -/
theorem breakLoop_spec (base : Nat) (orig : List (BitVec 64)) (free : Nat → Bool) (n : Nat) :
    ∀ b : Break, At orig b (64 * b.i + b.hi) → b.i < 8 → b.hi < 64 → 512 < n + (64 * b.i + b.hi) →
      ∃ b', breakLoop base n b (freedBelow base free orig (64 * b.i + b.hi)) =
        some (b', freedBelow base free orig 512) ∧ At orig b' 512 := by
  induction n with
  | zero => exact fun b _ hi hhi hn => by omega
  | succ n ih =>
    intro b hat hi hhi hn
    rcases breakZero_spec orig b hat hi hhi with ⟨b₁, lo, z, hres, hpz, hz, hused, hcase⟩
    rw [breakLoop_succ, hres]
    dsimp only
    rcases hcase with ⟨hend, hz512, hat'⟩ | ⟨hi₁, hlo, hzeq, hlo64, hzfree, hhi₁, hle, hat₁⟩
    · rw [if_pos hend]
      refine ⟨b₁, ?_, hat'⟩
      -- Nothing was free in the rest, so nothing had to be returned.
      have := freedBelow_run base free orig (64 * b.i + b.hi) 512 512 (by omega) le_rfl
        (hz512 ▸ hused) (fun q h1 h2 => by omega)
      rw [← this]
      refine congrArg (fun f => some (b₁, f)) ?_
      ext x
      simp only [physFree, Nat.sub_self, Nat.add_zero]
      by_cases hx : base + 512 ≤ x
      · simp [hx, show ¬ x < base + 512 by omega]
      · simp [hx]
    subst hzeq
    have hnpop : b₁.i ≠ npopmap := by
      rw [npopmap]
      omega
    rcases breakRest_spec orig b₁ (lo - 1) hat₁ hi₁ hlo64 hhi₁
      (fun q h1 h2 => hused q (by omega) h2) hzfree with ⟨b', hrest, hzo, hgap, hat', hstop⟩
    rw [if_neg hnpop, if_neg hlo, hrest]
    dsimp only
    rw [freedBelow_run base free orig _ _ _ hpz hzo.le hused hgap, npopmap]
    rcases hstop with ⟨hend, hzero⟩ | ⟨hi', hhi', -⟩
    · rw [hend, hzero] at hat' ⊢
      rw [if_neg (lt_irrefl 8)]
      exact ⟨b', rfl, hat'⟩
    · rw [if_pos hi']
      exact ih b' hat' hi' hhi' (by omega)

end FreeBSDKern.Reserv
