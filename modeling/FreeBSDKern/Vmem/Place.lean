import FreeBSDKern.Vmem.Fit

/-!
# The Places in a Tag

What `vmem_fit` should find, and exactly when it does.

A place is an address in the tag and in the bounds from where the range goes neither
beyond the tag or the upper bound nor across a boundary, and that agrees with the phase
modulo the alignment. Over the numbers the lowest place is found by rounding up, and a
second time where the range would cross a boundary. The assertion of `vmem_xalloc` that a
range at the phase itself crosses none is what makes the second rounding right: without
it the place behind the boundary could cross the next one.

Over words there are two ways out of the address space, one for each rounding. The words
go on at a low address then, in no way related to the tag, and that is returned if the
range there ends in time. There never is a place when this happens.

## Main definitions

* `Place`: What `vmem_fit` should find.
* `Asked`: What `vmem_xalloc` asserts about a request.
* `lowest`: The first rounding, as a number.
* `pushed`: The second rounding, as a number.
* `StaysInWords`: Neither rounding leaves the address space, or the range does not end in
  time where the words go on.

## Theorems

* `pushed_le_place`: No place is lower.
* `vmemFit_eq`: What the words compute.
* `vmem_fit_finds`: It is what it should be exactly if the words allow it.
-/

namespace FreeBSDKern.Vmem

open Lib

variable {bt : Bt} {l : Limits} {a b : Nat}

/-- What `vmem_fit` should find. -/
structure Place (bt : Bt) (l : Limits) (a : Nat) : Prop where
  start : bt.start ≤ a
  minaddr : l.minaddr ≤ a
  stop : a + l.size - 1 ≤ min l.maxaddr (btEnd bt)
  aligned : a ≡ l.phase [MOD l.align]
  nocross : l.nocross ≠ 0 → ∀ q, ¬ (a < q * l.nocross ∧ q * l.nocross < a + l.size)

/-- What `vmem_xalloc` asserts about a request, its alignment being the quantum where it
    was zero. -/
structure Asked (l : Limits) : Prop where
  size : 0 < l.size
  align : Pow2 l.align
  phase : l.phase < l.align
  nocross : l.nocross = 0 ∨ Pow2 l.nocross ∧ l.size ≤ l.nocross
  maxaddr : l.maxaddr < 2 ^ 64
  minaddr : l.minaddr ≤ l.maxaddr
  apart : crossP l.phase (wsub (wadd l.phase l.size) 1) l.nocross = false

/-- Where the bounds leave room for an address to begin, and where a range has to end. -/
def lower (bt : Bt) (l : Limits) : Nat := max bt.start l.minaddr

def upper (bt : Bt) (l : Limits) : Nat := min l.maxaddr (btEnd bt)

/-- The range from an address goes across a boundary. -/
def Crosses (l : Limits) (b : Nat) : Prop := l.nocross ≠ 0 ∧ l.nocross < b % l.nocross + l.size

instance (l : Limits) (b : Nat) : Decidable (Crosses l b) :=
  inferInstanceAs (Decidable (l.nocross ≠ 0 ∧ l.nocross < b % l.nocross + l.size))

/-- The first aligned address in the bounds. -/
def lowest (bt : Bt) (l : Limits) : Nat := roundTo (lower bt l) l.phase l.align

/-- The same address, or the one at the phase behind the boundary it crosses. -/
def pushed (l : Limits) (b : Nat) : Nat :=
  if Crosses l b then b / l.nocross * l.nocross + l.nocross + l.phase else b

/-- Where the words go on if the first rounding leaves the address space. -/
def restart (bt : Bt) (l : Limits) : Nat :=
  pushed l (if l.phase < bt.start then l.phase + l.align else l.phase)

/-- The address the words of both roundings lead to. -/
def fitted (bt : Bt) (l : Limits) : Nat :=
  if lowest bt l < 2 ^ 64 then
    (if l.nocross ≠ 0 ∧ 2 ^ 64 < lowest bt l + l.size then l.phase else pushed l (lowest bt l))
  else restart bt l

/-- Neither rounding leaves the address space, or where the words go on the range does
    not end in time. -/
def StaysInWords (bt : Bt) (l : Limits) : Prop :=
  lower bt l ≤ upper bt l → (2 ^ 64 ≤ lowest bt l → upper bt l < restart bt l + l.size - 1) ∧
    (lowest bt l < 2 ^ 64 → l.nocross ≠ 0 → 2 ^ 64 < lowest bt l + l.size →
      upper bt l < l.phase + l.size - 1)

section rounding

-- Rounding up gives the least address that agrees with the phase.
theorem roundTo_le {s phase align : Nat} (h : 0 < align) (hs : s ≤ a)
    (ha : a ≡ phase [MOD align]) : roundTo s phase align ≤ a := by
  have hround := roundTo_modEq s phase align h
  have hgap : roundTo s phase align < s + align := by
    unfold roundTo
    exact Nat.add_lt_add_left (Nat.mod_lt _ h) s
  by_contra hlt
  rw [not_le] at hlt
  -- Two addresses that agree are at least the alignment apart.
  have hdvd := (Nat.modEq_iff_dvd' (le_of_lt hlt)).mp (ha.trans hround.symm)
  have := Nat.le_of_dvd (Nat.sub_pos_of_lt hlt) hdvd
  omega

theorem Asked.align_pos (hl : Asked l) : 0 < l.align := Nat.pos_of_ne_zero hl.align.1

theorem lowest_modEq (bt : Bt) (hl : Asked l) : lowest bt l ≡ l.phase [MOD l.align] :=
  roundTo_modEq _ _ _ hl.align_pos

/-- The part of an address below its boundary is not less than the phase. -/
theorem phase_le_mod (hphase : l.phase < l.align) (hdvd : l.align ∣ l.nocross)
    (hb : b ≡ l.phase [MOD l.align]) : l.phase ≤ b % l.nocross := by
  have hmod : b % l.nocross ≡ l.phase [MOD l.align] := ((Nat.mod_modEq b l.nocross).of_dvd hdvd).trans hb
  have hle := Nat.mod_le (b % l.nocross) l.align
  rw [hmod, Nat.mod_eq_of_lt hphase] at hle
  exact hle

end rounding

section crossing

theorem not_multiple_iff (h : 0 < l.nocross) :
    (∀ q, ¬ (a < q * l.nocross ∧ q * l.nocross < a + l.size)) ↔ ¬ Crosses l a := by
  rw [no_multiple_inside h, Crosses, and_iff_right h.ne']

/-- A block of a power of two that begins in the address space ends in it. -/
theorem block_le {n q : Nat} (hn : Pow2 n) (h : q * n < 2 ^ 64) : q * n + n ≤ 2 ^ 64 := by
  rcases hn.eq with ⟨k, hk, hkeq⟩
  have hdvd : n ∣ 2 ^ 64 := by
    rw [hkeq]
    exact Nat.pow_dvd_pow 2 (le_of_lt hk)
  have hnext := next_multiple_le hdvd h
  rwa [Nat.mul_div_cancel _ (Nat.pos_of_ne_zero hn.1), Nat.add_mul, Nat.one_mul] at hnext

theorem Pow2.double_le {n : Nat} (hn : Pow2 n) : 2 * n ≤ 2 ^ 64 := by
  have := block_le (q := 1) hn (by have := hn.2.1; omega)
  omega

/-- What the words of the test compute, also where the end of the range wraps around. -/
theorem crossP_iff (hsize : 0 < l.size) (hnc : l.nocross = 0 ∨ Pow2 l.nocross ∧ l.size ≤ l.nocross)
    (hb : b < 2 ^ 64) : crossP b (wsub (wadd b l.size) 1) l.nocross = true ↔ Crosses l b := by
  unfold Crosses
  rcases hnc with hzero | ⟨hpow, hle⟩
  · rw [hzero, crossP_zero]
    exact ⟨nofun, fun h => absurd rfl h.1⟩
  rcases hpow.eq with ⟨k, hk, hkeq⟩
  have hpos : 0 < l.nocross := Nat.pos_of_ne_zero hpow.1
  have hend : wsub (wadd b l.size) 1 = (b + l.size - 1) % 2 ^ 64 := by
    unfold wsub wadd
    omega
  have hneg : wneg l.nocross = 2 ^ 64 - 2 ^ k := by
    have := hpow.2.1
    unfold wneg
    rw [Nat.mod_eq_of_lt (by omega), hkeq]
  have hlt : wsub (wadd b l.size) 1 < 2 ^ 64 := Nat.mod_lt _ (by decide)
  rw [crossP, hneg, decide_eq_true_eq, Ne, xor_and_neg_pow hb hlt (le_of_lt hk), ← hkeq, hend,
    and_iff_right hpow.1]
  have hdiv := Nat.div_add_mod b l.nocross
  have hmod := Nat.mod_lt b hpos
  rw [Nat.mul_comm] at hdiv
  by_cases hwrap : b + l.size - 1 < 2 ^ 64
  · rw [Nat.mod_eq_of_lt hwrap]
    constructor
    · intro hne
      by_contra hin
      refine hne (Nat.div_eq_of_lt_le ?_ ?_).symm
      · omega
      · rw [Nat.add_mul, Nat.one_mul]
        omega
    intro hcross heq
    have hdiv' := Nat.div_add_mod (b + l.size - 1) l.nocross
    have hmod' := Nat.mod_lt (b + l.size - 1) hpos
    rw [← heq, Nat.mul_comm] at hdiv'
    omega
  -- The address is in the last block of the address space and the end in the first.
  have hhalf := hpow.double_le
  have hsmall : (b + l.size - 1) % 2 ^ 64 < l.nocross := by omega
  have hnext : b / l.nocross * l.nocross + l.nocross ≤ 2 ^ 64 := block_le hpow (by omega)
  rw [Nat.div_eq_of_lt hsmall, Nat.div_eq_zero_iff]
  exact ⟨fun _ => by omega, fun _ => by omega⟩

theorem not_crosses_phase (hl : Asked l) : ¬ Crosses l l.phase := by
  have hlt : l.phase < 2 ^ 64 := lt_trans hl.phase hl.align.2.1
  rw [← crossP_iff hl.size hl.nocross hlt, hl.apart]
  exact Bool.false_ne_true

/-- An aligned address can only cross a boundary that is a larger power of two. -/
theorem crosses_spec (hl : Asked l) (hb : b ≡ l.phase [MOD l.align]) (hcross : Crosses l b) :
    Pow2 l.nocross ∧ l.size ≤ l.nocross ∧ l.align ∣ l.nocross ∧ l.phase < l.nocross ∧
      l.phase < b % l.nocross := by
  rcases hl.nocross with hzero | ⟨hpow, hle⟩
  · exact absurd hzero hcross.1
  rcases hpow.eq with ⟨k, hk, hkeq⟩
  rcases hl.align.eq with ⟨j, hj, hjeq⟩
  have hno := not_crosses_phase hl
  have hjk : j < k := by
    by_contra hge
    refine hno ⟨hcross.1, ?_⟩
    have hdvd : l.nocross ∣ l.align := by
      rw [hkeq, hjeq]
      exact Nat.pow_dvd_pow 2 (not_lt.mp hge)
    rw [← hb.of_dvd hdvd]
    exact hcross.2
  have hlt : l.align < l.nocross := by
    rw [hkeq, hjeq]
    exact Nat.pow_lt_pow_right (by decide) hjk
  have hdvd : l.align ∣ l.nocross := by
    rw [hkeq, hjeq]
    exact Nat.pow_dvd_pow 2 (le_of_lt hjk)
  have hphase : l.phase < l.nocross := lt_trans hl.phase hlt
  refine ⟨hpow, hle, hdvd, hphase, lt_of_le_of_ne (phase_le_mod hl.phase hdvd hb) ?_⟩
  -- At the phase itself the range does not cross.
  intro heq
  refine hno ⟨hcross.1, ?_⟩
  rw [Nat.mod_eq_of_lt hphase, heq]
  exact hcross.2

/-- The second rounding, where there is one. -/
theorem roundTo_nocross (hl : Asked l) (hb : b ≡ l.phase [MOD l.align]) (hcross : Crosses l b) :
    roundTo b l.phase l.nocross = b / l.nocross * l.nocross + l.nocross + l.phase := by
  rcases crosses_spec hl hb hcross with ⟨hpow, -, -, hphase, hlt⟩
  have hmod := Nat.mod_lt b (Nat.pos_of_ne_zero hpow.1)
  have hdiv := Nat.div_add_mod b l.nocross
  rw [Nat.mul_comm] at hdiv
  unfold roundTo
  rw [Nat.mod_eq_of_lt hphase, Nat.mod_eq_of_lt (by omega)]
  omega

end crossing

section pushed

theorem le_pushed (l : Limits) (b : Nat) : b ≤ pushed l b := by
  unfold pushed
  split
  case isTrue hcross =>
    have hdiv := Nat.div_add_mod b l.nocross
    have hmod := Nat.mod_lt b (Nat.pos_of_ne_zero hcross.1)
    rw [Nat.mul_comm] at hdiv
    omega
  case isFalse => exact Nat.le_refl b

/-- Behind the boundary the address is aligned, and its range crosses no boundary. -/
theorem pushed_spec (hl : Asked l) (hb : b ≡ l.phase [MOD l.align]) :
    pushed l b ≡ l.phase [MOD l.align] ∧ ¬ Crosses l (pushed l b) := by
  unfold pushed
  split
  case isTrue hcross =>
    rcases crosses_spec hl hb hcross with ⟨hpow, -, hdvd, hphase, -⟩
    have hbase : b / l.nocross * l.nocross + l.nocross + l.phase ≡ l.phase [MOD l.nocross] := by
      unfold Nat.ModEq
      rw [← Nat.succ_mul, Nat.add_comm, Nat.add_mul_mod_self_right]
    refine ⟨hbase.of_dvd hdvd, fun hagain => not_crosses_phase hl ⟨hcross.1, ?_⟩⟩
    rw [← hbase]
    exact hagain.2
  case isFalse hin => exact ⟨hb, hin⟩

/-- No place is lower than the address both roundings lead to. -/
theorem pushed_le_place (hl : Asked l) (ha : Place bt l a) : pushed l (lowest bt l) ≤ a := by
  have hlow : lowest bt l ≤ a :=
    roundTo_le hl.align_pos (Nat.max_le.mpr ⟨ha.start, ha.minaddr⟩) ha.aligned
  have hb := lowest_modEq bt hl
  unfold pushed
  split
  case isFalse => exact hlow
  case isTrue hcross =>
  rcases crosses_spec hl hb hcross with ⟨hpow, hsize, hdvd, hphase, -⟩
  have hpos := Nat.pos_of_ne_zero hpow.1
  -- An address before the boundary would cross it as well.
  have hbehind : lowest bt l / l.nocross * l.nocross + l.nocross ≤ a := by
    by_contra hbefore
    have hdiv := Nat.div_add_mod (lowest bt l) l.nocross
    rw [Nat.mul_comm] at hdiv
    have := hcross.2
    refine ha.nocross hpow.1 (lowest bt l / l.nocross + 1) ?_
    rw [Nat.add_mul, Nat.one_mul]
    omega
  have hmod := phase_le_mod hl.phase hdvd ha.aligned
  have hblock : (lowest bt l / l.nocross + 1) * l.nocross ≤ a / l.nocross * l.nocross := by
    refine Nat.mul_le_mul_right _ ((Nat.le_div_iff_mul_le hpos).mpr ?_)
    rw [Nat.add_mul, Nat.one_mul]
    exact hbehind
  have hdiv := Nat.div_add_mod a l.nocross
  rw [Nat.add_mul, Nat.one_mul] at hblock
  rw [Nat.mul_comm] at hdiv
  omega

/-- The address both roundings lead to is a place if its range ends in time. -/
theorem pushed_place (hl : Asked l) (hend : pushed l (lowest bt l) + l.size - 1 ≤ upper bt l) :
    Place bt l (pushed l (lowest bt l)) := by
  have hb := lowest_modEq bt hl
  rcases pushed_spec hl hb with ⟨haligned, hno⟩
  have hge : lower bt l ≤ pushed l (lowest bt l) :=
    le_trans (le_roundTo _ _ _) (le_pushed l _)
  refine ⟨le_trans (Nat.le_max_left _ _) hge, le_trans (Nat.le_max_right _ _) hge, hend,
    haligned, fun hne => ?_⟩
  rcases hl.nocross with hzero | ⟨hpow, hle⟩
  · exact absurd hzero hne
  · exact (not_multiple_iff (Nat.pos_of_ne_zero hne)).mpr hno

end pushed

section words

-- The second rounding leaves the address space exactly where the range from the first
-- address does, and then the words go on at the phase.
theorem pushed_mod (hl : Asked l) (hb : b ≡ l.phase [MOD l.align]) (hlt : b < 2 ^ 64) :
    pushed l b % 2 ^ 64 = if l.nocross ≠ 0 ∧ 2 ^ 64 < b + l.size then l.phase else pushed l b := by
  have hphase : l.phase < 2 ^ 64 := lt_trans hl.phase hl.align.2.1
  have hdiv := Nat.div_add_mod b l.nocross
  rw [Nat.mul_comm] at hdiv
  unfold pushed
  by_cases hcross : Crosses l b
  · rcases crosses_spec hl hb hcross with ⟨hpow, hsize, -, hphase', -⟩
    have hmod := Nat.mod_lt b (Nat.pos_of_ne_zero hpow.1)
    have hnext := block_le (q := b / l.nocross) hpow (by omega)
    have hover := hcross.2
    rw [if_pos hcross]
    by_cases hwrap : 2 ^ 64 < b + l.size
    · have hlast : b / l.nocross * l.nocross + l.nocross = 2 ^ 64 := by
        by_contra hne
        have hnext' := block_le (q := b / l.nocross + 1) hpow (by
          rw [Nat.add_mul, Nat.one_mul]
          omega)
        rw [Nat.add_mul, Nat.one_mul] at hnext'
        omega
      rw [if_pos ⟨hcross.1, hwrap⟩, hlast, Nat.add_mod_left, Nat.mod_eq_of_lt hphase]
    have hnext' := block_le (q := b / l.nocross + 1) hpow (by
      rw [Nat.add_mul, Nat.one_mul]
      omega)
    rw [Nat.add_mul, Nat.one_mul] at hnext'
    rw [if_neg (fun h => hwrap h.2), Nat.mod_eq_of_lt (by omega)]
  have hstay : ¬ (l.nocross ≠ 0 ∧ 2 ^ 64 < b + l.size) := by
    rintro ⟨hne, hwrap⟩
    rcases hl.nocross with hzero | ⟨hpow, hsize⟩
    · exact hne hzero
    · have hnext := block_le (q := b / l.nocross) hpow (by omega)
      exact hcross ⟨hne, by omega⟩
  rw [if_neg hcross, if_neg hstay, Nat.mod_eq_of_lt hlt]

theorem second_rounding (hl : Asked l) (hb : b ≡ l.phase [MOD l.align]) (hlt : b < 2 ^ 64) :
    (if crossP b (wsub (wadd b l.size) 1) l.nocross then
      wadd (alignUp (wsub b l.phase) l.nocross) l.phase else b) = pushed l b % 2 ^ 64 := by
  have hphase : l.phase < 2 ^ 64 := lt_trans hl.phase hl.align.2.1
  have hiff := crossP_iff hl.size hl.nocross hlt
  unfold pushed
  by_cases hcross : Crosses l b
  · rcases (crosses_spec hl hb hcross).1.eq with ⟨k, hk, hkeq⟩
    rw [if_pos (hiff.mpr hcross), if_pos hcross, ← roundTo_nocross hl hb hcross, hkeq,
      wadd_alignUp _ _ k hphase hk]
  · rw [if_neg (fun h => hcross (hiff.mp h)), if_neg hcross, Nat.mod_eq_of_lt hlt]

/-- Where the words of the first rounding go on. -/
theorem first_rounding (hl : Asked l) (hstart : bt.start < 2 ^ 64) :
    lowest bt l % 2 ^ 64 = if lowest bt l < 2 ^ 64 then lowest bt l else l.phase := by
  split
  case isTrue hlt => exact Nat.mod_eq_of_lt hlt
  case isFalse hge =>
  have hmin := hl.minaddr
  have hmax := hl.maxaddr
  have hlower : lower bt l < 2 ^ 64 := Nat.max_lt.mpr ⟨hstart, by omega⟩
  have hgap : lowest bt l < lower bt l + l.align :=
    Nat.add_lt_add_left (Nat.mod_lt _ hl.align_pos) _
  have hpow := hl.align.2.1
  have hmod : lowest bt l % 2 ^ 64 = lowest bt l - 2 ^ 64 := by omega
  -- It agrees with the phase still, and is less than the alignment.
  have hdvd : l.align ∣ 2 ^ 64 := by
    rcases hl.align.eq with ⟨k, hk, hkeq⟩
    rw [hkeq]
    exact Nat.pow_dvd_pow 2 (le_of_lt hk)
  have hcong : lowest bt l % 2 ^ 64 ≡ l.phase [MOD l.align] :=
    ((Nat.mod_modEq _ _).of_dvd hdvd).trans (roundTo_modEq _ _ _ hl.align_pos)
  have hsmall : lowest bt l % 2 ^ 64 < l.align := by omega
  exact hcong.eq_of_lt_of_lt hsmall hl.phase

/-- Where the first rounding has left the address space, the second one does not. -/
theorem restart_lt (bt : Bt) (hl : Asked l) : restart bt l % 2 ^ 64 = restart bt l := by
  have hpow := hl.align.double_le
  have hphase := hl.phase
  have hself : l.phase + l.align ≡ l.phase [MOD l.align] := Nat.add_mod_right _ _
  unfold restart
  split
  case isFalse =>
    have hno := not_crosses_phase hl
    unfold pushed
    rw [if_neg hno, Nat.mod_eq_of_lt (by omega)]
  case isTrue =>
  have hlt : l.phase + l.align < 2 ^ 64 := by omega
  rw [pushed_mod hl hself hlt, if_neg]
  rintro ⟨hne, hwrap⟩
  rcases hl.nocross with hzero | ⟨hnc, hsize⟩
  · exact hne hzero
  -- The range would have to cross a boundary, and then it lies in the first half.
  have hdiv := Nat.div_add_mod (l.phase + l.align) l.nocross
  rw [Nat.mul_comm] at hdiv
  have hnext := block_le (q := (l.phase + l.align) / l.nocross) hnc (by omega)
  have hcross : Crosses l (l.phase + l.align) := ⟨hne, by omega⟩
  rcases crosses_spec hl hself hcross with ⟨-, -, ⟨c, hc⟩, hphase', hover⟩
  have hc₂ : 2 ≤ c := by
    by_contra hfew
    have hone : c = 1 := by
      have : c ≠ 0 := fun h => hne (by rw [hc, h, Nat.mul_zero])
      omega
    rw [hone, Nat.mul_one] at hc
    rw [hc, Nat.add_mod_right, Nat.mod_eq_of_lt hphase] at hover
    exact lt_irrefl _ hover
  have hdouble : l.align * 2 ≤ l.nocross := by
    rw [hc]
    exact Nat.mul_le_mul_left _ hc₂
  have := hnc.double_le
  omega

section

variable (hl : Asked l) (hstart : bt.start < 2 ^ 64)
include hl hstart

theorem vmemFit_eq : vmemFit bt l =
      if lower bt l ≤ upper bt l ∧ fitted bt l + l.size - 1 ≤ upper bt l then some (fitted bt l)
      else none := by
  have hsize := hl.size
  have hphase : l.phase < 2 ^ 64 := lt_trans hl.phase hl.align.2.1
  have hlower : (if bt.start < l.minaddr then l.minaddr else bt.start) = lower bt l := by
    unfold lower
    split <;> omega
  have hupper : (if btEnd bt > l.maxaddr then l.maxaddr else btEnd bt) = upper bt l := by
    unfold upper
    split <;> omega
  rcases hl.align.eq with ⟨k, hk, hkeq⟩
  have hround : wadd (alignUp (wsub (lower bt l) l.phase) l.align) l.phase = lowest bt l % 2 ^ 64 := by
    rw [hkeq, wadd_alignUp _ _ k hphase hk, ← hkeq]
    rfl
  unfold vmemFit
  dsimp only
  rw [hlower, hupper, hround, first_rounding hl hstart]
  by_cases hroom : lower bt l ≤ upper bt l
  · have htest : ∀ b, (b ≤ upper bt l ∧ l.size - 1 ≤ upper bt l - b) ↔
        b + l.size - 1 ≤ upper bt l := by
      intro b
      omega
    rw [if_neg (Nat.not_lt.mpr hroom)]
    simp only [hroom, true_and, ← htest]
    unfold fitted
    by_cases hlt : lowest bt l < 2 ^ 64
    · have hge : ¬ lowest bt l < bt.start :=
        Nat.not_lt.mpr (le_trans (Nat.le_max_left _ _) (le_roundTo (lower bt l) _ _))
      rw [if_pos hlt, if_pos hlt, if_neg hge, second_rounding hl (lowest_modEq bt hl) hlt,
        pushed_mod hl (lowest_modEq bt hl) hlt]
    have hpow := hl.align.double_le
    have hwrapped : (if l.phase < bt.start then wadd l.phase l.align else l.phase) =
        (if l.phase < bt.start then l.phase + l.align else l.phase) := by
      unfold wadd
      rw [Nat.mod_eq_of_lt (by have := hl.phase; omega)]
    have hcong : (if l.phase < bt.start then l.phase + l.align else l.phase) ≡
        l.phase [MOD l.align] := by
      split
      · exact Nat.add_mod_right _ _
      · rfl
    have hword : (if l.phase < bt.start then l.phase + l.align else l.phase) < 2 ^ 64 := by
      have := hl.phase
      split <;> omega
    have hrestart := restart_lt bt hl
    unfold restart at hrestart ⊢
    rw [if_neg hlt, if_neg hlt, hwrapped, second_rounding hl hcong hword, hrestart]
  · rw [if_pos (not_le.mp hroom), if_neg (fun h => hroom h.1)]

theorem vmemFit_eq_some : vmemFit bt l = some a ↔
    lower bt l ≤ upper bt l ∧ fitted bt l + l.size - 1 ≤ upper bt l ∧ a = fitted bt l := by
  rw [vmemFit_eq hl hstart]
  split
  case isTrue hends =>
    rw [Option.some.injEq]
    exact ⟨fun heq => ⟨hends.1, hends.2, heq.symm⟩, fun h => h.2.2.symm⟩
  case isFalse hlate => exact ⟨nofun, fun h => absurd ⟨h.1, h.2.1⟩ hlate⟩

theorem vmemFit_eq_none : vmemFit bt l = none ↔
    (lower bt l ≤ upper bt l → upper bt l < fitted bt l + l.size - 1) := by
  rw [vmemFit_eq hl hstart]
  split
  case isTrue hends => exact ⟨nofun, fun h => absurd (h hends.1) (Nat.not_lt.mpr hends.2)⟩
  case isFalse hlate => exact ⟨fun _ hroom => not_le.mp (fun hle => hlate ⟨hroom, hle⟩), fun _ => rfl⟩

end

end words

/-- A place is in the tag and in the bounds. -/
theorem Place.room (hl : Asked l) (ha : Place bt l a) : lower bt l ≤ upper bt l := by
  have h₁ := Nat.max_le.mpr ⟨ha.start, ha.minaddr⟩
  have h₂ := ha.stop
  have h₃ := hl.size
  unfold lower upper
  omega

/-- For every tag and every request as it is asserted, `vmem_fit` returns a place and
    fails only if there is none, exactly if neither rounding leads out of the address
    space, or the range does not end in time where the words go on. -/
theorem vmem_fit_finds (bt : Bt) (l : Limits) (hstart : bt.start < 2 ^ 64) (hl : Asked l) :
    ((∀ a, vmemFit bt l = some a → Place bt l a) ∧
      (vmemFit bt l = none → ∀ a, ¬ Place bt l a)) ↔ StaysInWords bt l := by
  have hsize := hl.size
  have hbound : ∀ a, Place bt l a → pushed l (lowest bt l) + l.size - 1 ≤ upper bt l ∧
      lowest bt l + l.size - 1 ≤ upper bt l := by
    intro a ha
    have h₁ := pushed_le_place hl ha
    have h₂ := le_pushed l (lowest bt l)
    have h₃ : a + l.size - 1 ≤ upper bt l := ha.stop
    omega
  have hword : upper bt l < 2 ^ 64 := by
    have := hl.maxaddr
    have := Nat.min_le_left l.maxaddr (btEnd bt)
    unfold upper
    omega
  simp only [vmemFit_eq_some hl hstart, vmemFit_eq_none hl hstart]
  unfold StaysInWords fitted
  by_cases hlt : lowest bt l < 2 ^ 64
  · by_cases hwrap : l.nocross ≠ 0 ∧ 2 ^ 64 < lowest bt l + l.size
    · -- The second rounding leads out of the address space.
      have hnone : ∀ a, ¬ Place bt l a := fun a ha => by
        have := (hbound a ha).2
        omega
      rw [if_pos hlt, if_pos hwrap]
      constructor
      · rintro ⟨hfinds, -⟩ hroom
        refine ⟨fun hge => absurd hlt (Nat.not_lt.mpr hge), fun _ _ _ => ?_⟩
        by_contra hends
        exact hnone _ (hfinds l.phase ⟨hroom, not_lt.mp hends, rfl⟩)
      intro hstay
      refine ⟨fun a ha => ?_, fun _ => hnone⟩
      exact absurd ha.2.1 (not_le.mpr ((hstay ha.1).2 hlt hwrap.1 hwrap.2))
    rw [if_pos hlt, if_neg hwrap]
    refine ⟨fun _ _ => ⟨fun hge => absurd hlt (Nat.not_lt.mpr hge),
      fun _ hne hover => absurd ⟨hne, hover⟩ hwrap⟩, fun _ => ⟨?_, fun hlate a ha => ?_⟩⟩
    · rintro a ⟨-, hends, rfl⟩
      exact pushed_place hl hends
    · exact absurd (hbound a ha).1 (not_le.mpr (hlate (ha.room hl)))
  -- The first rounding leads out of the address space.
  have hnone : ∀ a, ¬ Place bt l a := fun a ha => by
    have := (hbound a ha).2
    omega
  rw [if_neg hlt]
  constructor
  · rintro ⟨hfinds, -⟩ hroom
    refine ⟨fun _ => ?_, fun h => absurd h hlt⟩
    by_contra hends
    exact hnone _ (hfinds (restart bt l) ⟨hroom, not_lt.mp hends, rfl⟩)
  intro hstay
  refine ⟨fun a ha => ?_, fun _ => hnone⟩
  exact absurd ha.2.1 (not_le.mpr ((hstay ha.1).1 (not_lt.mp hlt)))

/-- A page is placed in a tag of four, at an alignment of two. -/
theorem vmem_fit_finds_page :
    (⟨4096, 16384, .free⟩ : Bt).start < 2 ^ 64 ∧ Asked ⟨4096, 8192, 4096, 0, 0, 2 ^ 64 - 1⟩ ∧
    (((∀ a, vmemFit ⟨4096, 16384, .free⟩ ⟨4096, 8192, 4096, 0, 0, 2 ^ 64 - 1⟩ = some a →
        Place ⟨4096, 16384, .free⟩ ⟨4096, 8192, 4096, 0, 0, 2 ^ 64 - 1⟩ a) ∧
      (vmemFit ⟨4096, 16384, .free⟩ ⟨4096, 8192, 4096, 0, 0, 2 ^ 64 - 1⟩ = none →
        ∀ a, ¬ Place ⟨4096, 16384, .free⟩ ⟨4096, 8192, 4096, 0, 0, 2 ^ 64 - 1⟩ a)) ↔
      StaysInWords ⟨4096, 16384, .free⟩ ⟨4096, 8192, 4096, 0, 0, 2 ^ 64 - 1⟩) := by
  have hl : Asked ⟨4096, 8192, 4096, 0, 0, 2 ^ 64 - 1⟩ :=
    ⟨by decide, by decide, by decide, by decide, by decide, by decide, by decide⟩
  exact ⟨by decide, hl, vmem_fit_finds _ _ (by decide) hl⟩

/-- In the last two pages of the address space a page is to be placed at an alignment of
    four. There is no such place, and the address of the second four pages is returned. -/
theorem fit_wraps : Asked ⟨4096, 16384, 0, 0, 0, 2 ^ 64 - 1⟩ ∧
    vmemFit ⟨2 ^ 64 - 8192, 8192, .free⟩ ⟨4096, 16384, 0, 0, 0, 2 ^ 64 - 1⟩ = some 16384 ∧
    ¬ Place ⟨2 ^ 64 - 8192, 8192, .free⟩ ⟨4096, 16384, 0, 0, 0, 2 ^ 64 - 1⟩ 16384 :=
  ⟨⟨by decide, by decide, by decide, by decide, by decide, by decide, by decide⟩, by decide,
    fun h => absurd h.start (by decide)⟩

end FreeBSDKern.Vmem
