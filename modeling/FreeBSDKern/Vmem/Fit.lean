import FreeBSDKern.Lib.Mask
import FreeBSDKern.Vmem.Arena

/-!
# The Place of an Allocation in a Tag

`vmem_fit` rounds the first address it may use up to the alignment, and once
more where the result would cross a boundary. As a number, and not as a word,
the rounded address is the least one from there on that agrees with the phase
modulo the alignment. The words agree with that as long as it lies in the address
space. Where it does not, the word wraps around, and none of the tests that follow
notices that the address is before the tag.

## Main definitions

* `roundTo`: Rounding up without a bound.
* `NoWrap`: The rounding for a tag stays in the address space.

## Theorems

* `wadd_alignUp`: What the words compute.
* `vmemFit_inside`: Without wrapping, the address is inside the tag.
-/

namespace FreeBSDKern.Vmem

open Lib

/-- The least address from `s` on that agrees with `phase` modulo `align`. -/
def roundTo (s phase align : Nat) : Nat := s + (phase % align + align - s % align) % align

theorem le_roundTo (s phase align : Nat) : s ≤ roundTo s phase align := Nat.le_add_right _ _

theorem roundTo_modEq (s phase align : Nat) (h : 0 < align) :
    roundTo s phase align ≡ phase [MOD align] := by
  have hs := Nat.mod_lt s h
  unfold roundTo Nat.ModEq
  calc (s + (phase % align + align - s % align) % align) % align
      = (s % align + (phase % align + align - s % align)) % align := by
        rw [Nat.add_mod_mod, Nat.mod_add_mod]
    _ = (phase % align + align) % align := by
        rw [Nat.add_sub_of_le (by omega)]
    _ = phase % align := by
        rw [Nat.add_mod_right, Nat.mod_mod]

/-- Whatever divides the alignment and the phase divides the rounded address. -/
theorem dvd_roundTo {q : Nat} (s : Nat) {phase align : Nat} (h : 0 < align) (ha : q ∣ align)
    (hp : q ∣ phase) : q ∣ roundTo s phase align := by
  have hmod := (roundTo_modEq s phase align h).of_dvd ha
  rw [← Nat.modEq_zero_iff_dvd] at hp ⊢
  exact hmod.trans hp

theorem alignUp_eq (x k : Nat) (hx : x < 2 ^ 64) (hk : k < 64) :
    alignUp x (2 ^ k) = (x + (2 ^ 64 - x) % 2 ^ k) % 2 ^ 64 := by
  have hpow : 2 ^ k < 2 ^ 64 := Nat.pow_lt_pow_right (by decide) hk
  have hpos : 0 < 2 ^ k := Nat.two_pow_pos k
  have hdvd : 2 ^ k ∣ 2 ^ 64 := Nat.pow_dvd_pow 2 (le_of_lt hk)
  have hneg : wneg (2 ^ k) = 2 ^ 64 - 2 ^ k := Nat.mod_eq_of_lt (by omega)
  unfold alignUp
  rw [hneg]
  by_cases hzero : x = 0
  · subst hzero
    have : wneg 0 = 0 := by decide
    rw [this, Nat.zero_and, this, Nat.sub_zero, Nat.mod_eq_zero_of_dvd hdvd]
    rfl
  have hy : wneg x = 2 ^ 64 - x := Nat.mod_eq_of_lt (by omega)
  rw [hy, and_neg_pow _ _ (by omega) (le_of_lt hk), wneg]
  have hle := Nat.mod_le (2 ^ 64 - x) (2 ^ k)
  congr 1
  omega

/-- What the words compute is the rounded address, as long as it is one. -/
theorem wadd_alignUp (s phase k : Nat) (hphase : phase < 2 ^ 64) (hk : k < 64) :
    wadd (alignUp (wsub s phase) (2 ^ k)) phase = roundTo s phase (2 ^ k) % 2 ^ 64 := by
  have hx : wsub s phase < 2 ^ 64 := Nat.mod_lt _ (by decide)
  have hpos : 0 < 2 ^ k := Nat.two_pow_pos k
  have hdvd : 2 ^ k ∣ 2 ^ 64 := Nat.pow_dvd_pow 2 (le_of_lt hk)
  rw [alignUp_eq _ k hx hk]
  -- The distance to the next aligned address does not depend on the word size.
  have hback : wsub s phase + phase ≡ s [MOD 2 ^ 64] := by
    unfold wsub Nat.ModEq
    rw [Nat.mod_add_mod, show s + (2 ^ 64 - phase) + phase = s + 2 ^ 64 by omega, Nat.add_mod_right]
  have hdist : (2 ^ 64 - wsub s phase) % 2 ^ k = (phase % 2 ^ k + 2 ^ k - s % 2 ^ k) % 2 ^ k := by
    have h1 : 2 ^ 64 - wsub s phase + s ≡ phase [MOD 2 ^ k] := by
      have : 2 ^ 64 - wsub s phase + (wsub s phase + phase) ≡ phase [MOD 2 ^ k] := by
        rw [← Nat.add_assoc, Nat.sub_add_cancel (by omega)]
        unfold Nat.ModEq
        rw [Nat.add_mod, Nat.mod_eq_zero_of_dvd hdvd, Nat.zero_add, Nat.mod_mod]
      exact (Nat.ModEq.add_left _ (hback.of_dvd hdvd).symm).trans this
    have h2 : (phase % 2 ^ k + 2 ^ k - s % 2 ^ k) + s ≡ phase [MOD 2 ^ k] := by
      have h := roundTo_modEq s phase (2 ^ k) hpos
      unfold roundTo Nat.ModEq at h
      rw [Nat.add_mod_mod, Nat.add_comm] at h
      exact h
    exact Nat.ModEq.add_right_cancel' s (h1.trans h2.symm)
  unfold wadd roundTo
  rw [hdist, Nat.mod_add_mod, Nat.add_right_comm]
  exact (hback.add_right _)

/-- The rounding for a tag stays in the address space. -/
def NoWrap (bt : Bt) (l : Limits) : Prop :=
  max bt.start l.minaddr ≤ min (bt.start + bt.size - 1) l.maxaddr →
    let start := roundTo (max bt.start l.minaddr) l.phase l.align
    start < 2 ^ 64 ∧ (crossP start (wsub (wadd start l.size) 1) l.nocross = true →
      roundTo start l.phase l.nocross < 2 ^ 64)

instance (bt : Bt) (l : Limits) : Decidable (NoWrap bt l) :=
  inferInstanceAs (Decidable (_ → (_ ∧ (_ → _))))

/-- Powers of two below the size of the address space. -/
def Pow2 (n : Nat) : Prop := n ≠ 0 ∧ n < 2 ^ 64 ∧ n &&& (n - 1) = 0

instance (n : Nat) : Decidable (Pow2 n) :=
  inferInstanceAs (Decidable (n ≠ 0 ∧ n < 2 ^ 64 ∧ n &&& (n - 1) = 0))

theorem Pow2.eq {n : Nat} (h : Pow2 n) : ∃ k, k < 64 ∧ n = 2 ^ k := by
  rcases (Nat.and_sub_one_eq_zero_iff_isPowerOfTwo h.1).mp h.2.2 with ⟨k, hk⟩
  refine ⟨k, ?_, hk⟩
  have hlt := h.2.1
  rw [hk] at hlt
  exact (Nat.pow_lt_pow_iff_right (by decide)).mp hlt

/-- Restrictions as the callers give them, in multiples of a quantum. -/
structure LimitsOk (q : Nat) (l : Limits) : Prop where
  size_pos : 0 < l.size
  align : Pow2 l.align
  nocross : l.nocross = 0 ∨ Pow2 l.nocross
  phase : l.phase < 2 ^ 64
  minaddr : l.minaddr < 2 ^ 64
  dvd_size : q ∣ l.size
  dvd_align : q ∣ l.align
  dvd_phase : q ∣ l.phase
  dvd_nocross : q ∣ l.nocross

theorem crossP_zero (a b : Nat) : crossP a b 0 = false := by
  have : wneg 0 = 0 := by decide
  rw [crossP, this, Nat.and_zero]
  rfl

theorem vmemFit_inside {q : Nat} {bt : Bt} {l : Limits} {addr : Nat} (hl : LimitsOk q l)
    (hpos : 0 < bt.size) (hend : bt.start + bt.size ≤ 2 ^ 64) (hnw : NoWrap bt l)
    (h : vmemFit bt l = some addr) :
    bt.start ≤ addr ∧ addr + l.size ≤ bt.start + bt.size ∧ q ∣ addr := by
  have hsize := hl.size_pos
  have hbtend : btEnd bt = bt.start + bt.size - 1 := by
    unfold btEnd wsub wadd
    by_cases hfull : bt.start + bt.size = 2 ^ 64
    · rw [hfull]
      decide
    · rw [Nat.mod_eq_of_lt (show bt.start + bt.size < 2 ^ 64 by omega)]
      omega
  have hstart : (if bt.start < l.minaddr then l.minaddr else bt.start) = max bt.start l.minaddr := by
    split <;> omega
  have hstop : (if btEnd bt > l.maxaddr then l.maxaddr else btEnd bt) =
      min (bt.start + bt.size - 1) l.maxaddr := by
    rw [hbtend]
    split <;> omega
  unfold vmemFit at h
  simp only [hstart, hstop] at h
  by_cases hbad : max bt.start l.minaddr > min (bt.start + bt.size - 1) l.maxaddr
  · rw [if_pos hbad] at h
    cases h
  rw [if_neg hbad] at h
  rcases hnw (by omega) with ⟨hlt, hcrossNw⟩
  rcases hl.align.eq with ⟨k, hk, hpow⟩
  have hal : 0 < l.align := Nat.pos_of_ne_zero hl.align.1
  have hround : wadd (alignUp (wsub (max bt.start l.minaddr) l.phase) l.align) l.phase =
      roundTo (max bt.start l.minaddr) l.phase l.align := by
    rw [hpow, wadd_alignUp _ _ k hl.phase hk, ← hpow, Nat.mod_eq_of_lt hlt]
  have hge := le_roundTo (max bt.start l.minaddr) l.phase l.align
  have hdvd := dvd_roundTo (max bt.start l.minaddr) hal hl.dvd_align hl.dvd_phase
  have hkeep : ¬ roundTo (max bt.start l.minaddr) l.phase l.align < bt.start := by omega
  rw [hround, if_neg hkeep] at h
  generalize roundTo (max bt.start l.minaddr) l.phase l.align = start at hlt hcrossNw hge hdvd h
  -- Rounding a second time, where the first place would cross the boundary.
  have hsecond : ∃ start', (if crossP start (wsub (wadd start l.size) 1) l.nocross then
      wadd (alignUp (wsub start l.phase) l.nocross) l.phase else start) = start' ∧
      start ≤ start' ∧ q ∣ start' := by
    by_cases hcross : crossP start (wsub (wadd start l.size) 1) l.nocross = true
    · rw [if_pos hcross]
      rcases hl.nocross with hzero | hnc
      · rw [hzero, crossP_zero] at hcross
        cases hcross
      rcases hnc.eq with ⟨j, hj, hpow'⟩
      refine ⟨roundTo start l.phase l.nocross, ?_, le_roundTo _ _ _,
        dvd_roundTo _ (Nat.pos_of_ne_zero hnc.1) hl.dvd_nocross hl.dvd_phase⟩
      have hlt' := hcrossNw hcross
      rw [hpow', wadd_alignUp _ _ j hl.phase hj, ← hpow', Nat.mod_eq_of_lt hlt']
    · rw [if_neg hcross]
      exact ⟨start, rfl, le_rfl, hdvd⟩
  rcases hsecond with ⟨start', heq, hge', hdvd'⟩
  rw [heq] at h
  by_cases hfits : start' ≤ min (bt.start + bt.size - 1) l.maxaddr ∧
      l.size - 1 ≤ min (bt.start + bt.size - 1) l.maxaddr - start'
  · rw [if_pos hfits, Option.some.injEq] at h
    subst h
    exact ⟨by omega, by omega, hdvd'⟩
  · rw [if_neg hfits] at h
    cases h

end FreeBSDKern.Vmem
