import FreeBSDKern.Rman.Adjust

/-!
# Alignment and Boundary

The loop that moves the start of a request up to its alignment and over a boundary
it may not cross. The words wrap, so a start can end up below where it began: when
the request is in the last block of its boundary and does not fit there, the next
block is that of zero. `fits` leaves this out, and `adjustLoop_ge` says that a loop
that returns has then moved the start up.

A loop need not return. With an alignment above the boundary, and a request longer
than the boundary, no start is ever good enough, and the loop ends only at the end
of the region. If that is the last word, the starts go round.

## Main definitions

* `Request.roundUp`: The next multiple of the alignment.
* `Request.fits`: No sum of the loop is more than a word.

## Theorems

* `adjustLoop_ge`: The loop does not move a start down.
* `adjustLoop_aligned`: It leaves alone a start that is good.
-/

namespace FreeBSDKern.Rman

open Lib

variable {x a : Nat} {q : Request}

theorem and_compl_mask (hx : x < wordSize) (ha : a ≤ 64) :
    x &&& compl (2 ^ a - 1) = x / 2 ^ a * 2 ^ a := by
  apply Nat.eq_of_testBit_eq
  intro i
  have hmax : ulongMax = 2 ^ 64 - 1 := rfl
  rw [compl, hmax, Nat.testBit_and, Nat.testBit_xor, Nat.testBit_two_pow_sub_one,
    Nat.testBit_two_pow_sub_one, Nat.testBit_mul_two_pow, Nat.testBit_div_two_pow]
  by_cases hi : i < 64
  · by_cases hia : i < a
    · have hnot : ¬a ≤ i := by omega
      simp [hi, hia, hnot]
    · have hle : a ≤ i := by omega
      simp [hi, hia, hle, Nat.sub_add_cancel hle]
  have hzero : x.testBit i = false := Nat.testBit_lt_two_pow
    (lt_of_lt_of_le hx (Nat.pow_le_pow_right (by decide) (by omega)))
  have hle : a ≤ i := by omega
  simp [hzero, hle, Nat.sub_add_cancel hle]

theorem compl_compl (x : Nat) : compl (compl x) = x := by
  rw [compl, compl, Nat.xor_assoc, Nat.xor_self, Nat.xor_zero]

theorem rfAlignment_lt (f : Flags) : rfAlignment f < 64 := by
  have hle : f.toNat &&& 0xFC00 ≤ 0xFC00 := Nat.and_le_right
  have hmask : rfAlignmentMask.toNat = 0xFC00 := by decide
  rw [rfAlignment, BitVec.toNat_ushiftRight, BitVec.toNat_and, hmask, Nat.shiftRight_eq_div_pow]
  omega

theorem sub_of_le {b : Nat} (hba : b ≤ a) (ha : a < wordSize) : sub a b = a - b := by
  have hsum : a + (wordSize - b) = a - b + wordSize := by omega
  rw [sub, hsum, Nat.add_mod_right, Nat.mod_eq_of_lt (by omega)]

theorem add_of_lt {b : Nat} (h : a + b < wordSize) : add a b = a + b := Nat.mod_eq_of_lt h

namespace Request

/-- What the request asks with are words. -/
structure Words (q : Request) : Prop where
  start : q.start < wordSize
  (end' : q.end' < wordSize)
  count : q.count < wordSize
  bound : q.bound < wordSize

/-- The next multiple of the alignment. -/
def roundUp (q : Request) (x : Nat) : Nat :=
  (x + q.amask) / 2 ^ rfAlignment q.flags * 2 ^ rfAlignment q.flags

/-- Does the request cross a boundary when it starts here? -/
def crosses (q : Request) (y : Nat) : Bool := (y ^^^ q.last y) &&& q.bmask ≠ 0

/-- The sums of a turn are words: the alignment, and the way to the next boundary
    if there is one to be crossed. -/
def turnFits (q : Request) (x : Nat) : Bool :=
  x + q.amask < wordSize ∧
    (q.crosses (q.roundUp x) → q.roundUp x + (q.bound - (q.roundUp x &&& (q.bound - 1))) < wordSize)

/-- The sums of all turns of the loop are words. -/
def fits (q : Request) (rEnd : Nat) : Nat → Nat → Bool
  | 0, _ => true
  | fuel + 1, x =>
    q.turnFits x && if q.adjust x &&& q.amask ≠ 0 ∧ q.adjust x < q.end' ∧ q.adjust x < rEnd then
      q.fits rEnd fuel (q.adjust x) else true

theorem bmask_zero (h : q.bound = 0) : q.bmask = 0 := by
  rw [bmask, h]
  decide

theorem not_crosses (h : q.bound = 0) (y : Nat) : q.crosses y = false := by
  rw [crosses, bmask_zero h, Nat.and_zero]
  rfl

theorem le_roundUp (q : Request) (x : Nat) : x ≤ q.roundUp x ∧ q.roundUp x ≤ x + q.amask := by
  have hpos : 0 < 2 ^ rfAlignment q.flags := Nat.two_pow_pos _
  have hmod := Nat.mod_lt (x + q.amask) hpos
  have hdiv := Nat.div_add_mod' (x + q.amask) (2 ^ rfAlignment q.flags)
  unfold roundUp
  unfold amask at *
  omega

theorem align_eq (h : x + q.amask < wordSize) : add x q.amask &&& compl q.amask = q.roundUp x := by
  rw [add_of_lt h, roundUp]
  exact and_compl_mask h (le_of_lt (rfAlignment_lt q.flags))

/-- A turn whose sums are words. -/
theorem adjust_eq (hw : q.Words) (h : q.turnFits x = true) :
    q.adjust x = if q.crosses (q.roundUp x) then
      q.roundUp x + (q.bound - (q.roundUp x &&& (q.bound - 1))) else q.roundUp x := by
  rcases of_decide_eq_true h with ⟨halign, hcross⟩
  rw [adjust, align_eq halign]
  by_cases hc : q.crosses (q.roundUp x) = true
  · have hb : 0 < q.bound := by
      by_contra hb
      rw [not_crosses (by omega)] at hc
      exact absurd hc Bool.false_ne_true
    have hand : q.roundUp x &&& (q.bound - 1) ≤ q.bound - 1 := Nat.and_le_right
    rw [if_pos hc]
    have hone : sub q.bound 1 = q.bound - 1 := sub_of_le hb hw.bound
    rw [if_pos (of_decide_eq_true hc), bmask, compl_compl, hone,
      sub_of_le (by omega) hw.bound, add_of_lt (hcross hc)]
  · rw [if_neg hc]
    rw [if_neg (fun h => hc (decide_eq_true h))]

theorem le_adjust (hw : q.Words) (h : q.turnFits x = true) :
    x ≤ q.adjust x ∧ q.adjust x < wordSize := by
  rcases of_decide_eq_true h with ⟨halign, hcross⟩
  have hle := q.le_roundUp x
  rw [adjust_eq hw h]
  split
  case isTrue hc =>
    have hword := hcross hc
    exact ⟨by omega, hword⟩
  case isFalse => exact ⟨hle.1, by omega⟩

/-- A loop that returns has moved the start up. -/
theorem adjustLoop_ge {rEnd : Nat} (hw : q.Words) :
    ∀ {fuel x y : Nat}, q.fits rEnd fuel x = true → q.adjustLoop rEnd fuel x = some y →
      x ≤ y ∧ y < wordSize := by
  intro fuel
  induction fuel with
  | zero =>
    intro x y _ hloop
    cases hloop
  | succ fuel ih =>
    intro x y hfits hloop
    rw [fits, Bool.and_eq_true] at hfits
    rcases hfits with ⟨hturn, hrest⟩
    have hle := le_adjust hw hturn
    simp only [adjustLoop] at hloop
    split at hloop
    case isTrue hgo =>
      rw [if_pos hgo] at hrest
      have := ih hrest hloop
      omega
    case isFalse =>
      rw [Option.some.injEq] at hloop
      rw [← hloop]
      exact hle

/-- The last block of an alignment ends with the last word. -/
theorem add_amask_lt (hx : x < wordSize) (halign : x &&& q.amask = 0) :
    x + q.amask < wordSize ∧ q.roundUp x = x := by
  have hpos : 0 < 2 ^ rfAlignment q.flags := Nat.two_pow_pos _
  rw [amask, Nat.and_two_pow_sub_one_eq_mod] at halign
  rcases Nat.dvd_of_mod_eq_zero halign with ⟨k, hk⟩
  rcases Nat.pow_dvd_pow 2 (le_of_lt (rfAlignment_lt q.flags)) with ⟨c, hc⟩
  have hword : wordSize = 2 ^ rfAlignment q.flags * c := hc
  have hkc : k < c := by
    rw [hk, hword] at hx
    exact Nat.lt_of_mul_lt_mul_left hx
  have hnext : 2 ^ rfAlignment q.flags * (k + 1) ≤ 2 ^ rfAlignment q.flags * c :=
    Nat.mul_le_mul_left _ hkc
  rw [Nat.mul_add, ← hword, ← hk] at hnext
  refine ⟨by unfold amask; omega, ?_⟩
  have hdiv : (x + q.amask) / 2 ^ rfAlignment q.flags = k := by
    rw [hk, amask, Nat.mul_add_div hpos, Nat.div_eq_of_lt (by omega), Nat.add_zero]
  rw [roundUp, hdiv, hk, Nat.mul_comm]

/-- A start that is aligned and crosses no boundary is left alone. -/
theorem adjustLoop_aligned {rEnd fuel : Nat} (hx : x < wordSize) (halign : x &&& q.amask = 0)
    (hcross : (x ^^^ q.last x) &&& q.bmask = 0) : q.adjustLoop rEnd (fuel + 1) x = some x := by
  rcases add_amask_lt hx halign with ⟨hlt, hround⟩
  have hadjust : q.adjust x = x := by
    rw [adjust, align_eq hlt, hround]
    exact if_neg (fun h => h hcross)
  simp only [adjustLoop, hadjust]
  rw [if_neg (fun h => h.1 halign)]

end Request

end FreeBSDKern.Rman
