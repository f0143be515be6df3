import FreeBSDKern.Callout.Wheel

/-!
# The Slots of a Scan

Slot numbers are times cut to 32 bits, so what the source computes with them is
the true arithmetic on ticks as long as the differences stay below `2^32`. Here
the window of a scan is worked out in true ticks: the scan starts at the tick of
the last scan, has to get `lo` ticks further and may get `hi` ticks further,
neither of which is more than once around the wheel.

## Main definitions

* `tick`: The true slot number of a time.
* `gap`: The ticks since the last scan.
* `aheadTicks`: How many ticks a scan looks ahead.

## Theorems

* `window_eq`: The window of a scan, in ticks.
* `slot_mod`: A slot is a tick modulo the size of the wheel.
* `keepsGoing`: The test of the outer loop, in ticks.
-/

namespace FreeBSDKern.Callout

/-- The slot number of a time before it is cut to 32 bits. -/
def tick (t : Int) : Nat := (t / 2 ^ 24).toNat

/-- The ticks from the last scan to this one. -/
def gap (lastscan now : Int) : Nat := tick now - tick lastscan

def aheadTicks (g : Nat) : Nat := if g = 0 then 16 else if g = 1 then 32 else 128

theorem aheadTicks_pos (g : Nat) : 16 ≤ aheadTicks g ∧ aheadTicks g ≤ 128 := by
  unfold aheadTicks
  split
  · omega
  · split
    all_goals omega

theorem calloutHash_eq (t : Int) (h : 0 ≤ t) : calloutHash t = tick t % 2 ^ 32 := by
  unfold calloutHash tick
  omega

theorem usub_mod (a b : Nat) (h : b ≤ a) : usub (a % 2 ^ 32) (b % 2 ^ 32) = (a - b) % 2 ^ 32 := by
  unfold usub
  omega

theorem toSbt_of_range (x : Int) (h0 : 0 ≤ x) (h : x < 2 ^ 63) : toSbt x = x :=
  Int.bmod_eq_of_le_mul_two (by omega) (by omega)

/-- The hash does not see a time wrap around. -/
theorem calloutHash_toSbt (x : Int) (h : 0 ≤ x) :
    calloutHash (toSbt x / 2 ^ 24 * 2 ^ 24) = tick x % 2 ^ 32 := by
  have hwrap : toSbt x = x - (2 ^ 64 : Nat) * Int.bdiv x (2 ^ 64) :=
    Int.bmod_eq_self_sub_mul_bdiv x (2 ^ 64)
  unfold calloutHash tick
  rw [hwrap]
  omega

theorem tick_mono (s t : Int) (h : s ≤ t) : tick s ≤ tick t := by
  unfold tick
  omega

theorem tick_add (t : Int) (n : Nat) (h : 0 ≤ t) : tick (t + n * 2 ^ 24) = tick t + n := by
  unfold tick
  omega

theorem lookahead_eq (f g : Nat) (hg : g < 2 ^ 32) :
    lookahead (f % 2 ^ 32) ((f + g) % 2 ^ 32) = (aheadTicks g : Int) * 2 ^ 24 := by
  have hsub : usub ((f + g) % 2 ^ 32) (f % 2 ^ 32) = g := by
    rw [usub_mod _ _ (by omega)]
    omega
  have heq : (f + g) % 2 ^ 32 = f % 2 ^ 32 ↔ g = 0 := by omega
  unfold lookahead aheadTicks
  rw [hsub]
  by_cases h0 : g = 0
  · rw [if_pos (heq.mpr h0), if_pos h0]
    rfl
  rw [if_neg (fun he => h0 (heq.mp he)), if_neg h0]
  split
  all_goals rfl

/-- The window in ticks. Neither end is more than once around the wheel. -/
theorem window_eq (k : Nat) (lastscan now : Int) (hk : k ≤ 31) (h0 : 0 ≤ lastscan)
    (hle : lastscan ≤ now) (hgap : gap lastscan now + 128 ≤ 2 ^ 32) :
    (window k lastscan now).firstb = tick lastscan % 2 ^ 32 ∧ (window k lastscan now).nowb =
        (tick lastscan + min (gap lastscan now) (2 ^ k - 1)) % 2 ^ 32 ∧
      (window k lastscan now).lastb = (tick lastscan +
        min (gap lastscan now + aheadTicks (gap lastscan now) - 1) (2 ^ k - 1)) % 2 ^ 32 ∧
      (window k lastscan now).last =
        toSbt (now + aheadTicks (gap lastscan now) * 2 ^ 24) / 2 ^ 24 * 2 ^ 24 := by
  have hmono := tick_mono lastscan now hle
  have hnow : tick now = tick lastscan + gap lastscan now := by
    unfold gap
    omega
  have hahead := aheadTicks_pos (gap lastscan now)
  have hsize : 2 ^ k ≤ 2 ^ 31 := Nat.pow_le_pow_right (by decide) hk
  have hpos : 0 < 2 ^ k := Nat.pow_pos (by decide)
  have hlast := calloutHash_toSbt (now + aheadTicks (gap lastscan now) * 2 ^ 24) (by omega)
  rw [tick_add now _ (by omega), hnow] at hlast
  have hlastb : usub (calloutHash (toSbt (now + aheadTicks (gap lastscan now) * 2 ^ 24) /
      2 ^ 24 * 2 ^ 24)) 1 =
      (tick lastscan + gap lastscan now + aheadTicks (gap lastscan now) - 1) % 2 ^ 32 := by
    rw [hlast]
    exact usub_mod _ 1 (by omega)
  unfold window
  dsimp only
  rw [calloutHash_eq lastscan h0, calloutHash_eq now (by omega), hnow,
    lookahead_eq _ _ (by omega), hlastb, usub_mod _ _ (by omega), usub_mod _ _ (by omega)]
  generalize hF : tick lastscan = F
  generalize hG : gap lastscan now = G at *
  generalize hA : aheadTicks G = A at *
  generalize hS : 2 ^ k = S at *
  have hclip : usub (uadd (F % 2 ^ 32) S) 1 = (F + (S - 1)) % 2 ^ 32 := by
    unfold usub uadd
    omega
  rw [hclip]
  have hd1 : (F + G + A - 1 - F) % 2 ^ 32 = G + A - 1 := by omega
  have hd2 : (F + G - F) % 2 ^ 32 = G := by omega
  rw [hd1, hd2]
  by_cases hwide : G + A - 1 ≥ S
  · rw [if_pos hwide]
    refine ⟨rfl, ?_, ?_, rfl⟩
    · dsimp only
      split
      · rw [Nat.min_eq_right (by omega)]
      · rw [Nat.min_eq_left (by omega)]
    · rw [Nat.min_eq_right (by omega)]
  rw [if_neg hwide]
  refine ⟨rfl, ?_, ?_, rfl⟩
  · rw [Nat.min_eq_left (by omega)]
  · rw [Nat.min_eq_left (by omega), show F + G + A - 1 = F + (G + A - 1) by omega]

theorem slot_mod (k x : Nat) (hk : k ≤ 31) : slot k (x % 2 ^ 32) = x % 2 ^ k := by
  rw [slot, Nat.and_two_pow_sub_one_eq_mod]
  exact Nat.mod_mod_of_dvd x (Nat.pow_dvd_pow 2 (by omega))

theorem calloutGetBucket_eq (k : Nat) (t : Int) (hk : k ≤ 31) (h : 0 ≤ t) :
    calloutGetBucket k t = tick t % 2 ^ k := by
  rw [calloutGetBucket, calloutHash_eq t h, slot_mod k _ hk]

/-- The outer loop goes on exactly while the next slot is within the bound. -/
theorem keepsGoing (f j l : Nat) (hj : j ≤ l + 128) (hl : l < 2 ^ 31) :
    intLeZero (usub ((f + j) % 2 ^ 32) ((f + l) % 2 ^ 32)) = decide (j ≤ l) := by
  have hsub : usub ((f + j) % 2 ^ 32) ((f + l) % 2 ^ 32) = (j + 2 ^ 32 - l) % 2 ^ 32 := by
    unfold usub
    omega
  rw [hsub, intLeZero]
  by_cases hle : j ≤ l
  · rw [decide_eq_true hle, decide_eq_true_eq]
    omega
  · rw [decide_eq_false hle, decide_eq_false_iff_not]
    omega

theorem uadd_mod (f j : Nat) : uadd ((f + j) % 2 ^ 32) 1 = (f + (j + 1)) % 2 ^ 32 := by
  unfold uadd
  omega

end FreeBSDKern.Callout
