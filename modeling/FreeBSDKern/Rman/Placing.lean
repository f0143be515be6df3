import FreeBSDKern.Lib.Mask
import FreeBSDKern.Rman.Reserve

/-!
# The First Address for a Request

Where the boundary of a request is a power of two that is not less than its count, the
loop takes one turn: the start is rounded up to the alignment, and if the request crosses
a boundary there it is moved to it. This is the first address at or behind the start that
does, unless it is beyond the last word. Then the words go on at zero.

## Main definitions

* `Request.Over`: The request crosses a boundary.
* `Request.place`: The first address.
* `Fits`: A range is as it is asked for.

## Theorems

* `adjustLoop_place`: What the loop returns.
* `place_le`: No address before it will do.
* `fits_iff`: A range of the size begins at an address that will do.
-/

namespace FreeBSDKern.Rman

open Lib

/-- The boundary, if there is one, is a power of two with room for the request. -/
def BoundOk (q : Request) : Prop := q.bound = 0 ∨ (∃ k, q.bound = 2 ^ k) ∧ q.count ≤ q.bound

/-- A range is as it is asked for. -/
structure Fits (q : Request) (a b : Nat) : Prop where
  units : b + 1 = a + q.count
  start : q.start ≤ a
  (end' : b ≤ q.end')
  aligned : 2 ^ rfAlignment q.flags ∣ a
  bounded : ∀ k, ¬(a < k * q.bound ∧ k * q.bound ≤ b)

namespace Request

variable {q : Request} {x y z : Nat}

/-- The request crosses a boundary when it starts here. -/
def Over (q : Request) (y : Nat) : Prop := q.bound ≠ 0 ∧ q.bound < y % q.bound + q.count

instance (q : Request) (y : Nat) : Decidable (q.Over y) :=
  inferInstanceAs (Decidable (_ ≠ _ ∧ _ < _))

/-- The start moved to the next boundary, where it crosses one. -/
def push (q : Request) (y : Nat) : Nat := if q.Over y then (y / q.bound + 1) * q.bound else y

/-- The first address for the request from a start on. -/
def place (q : Request) (x : Nat) : Nat := q.push (q.roundUp x)

theorem dvd_roundUp (q : Request) (x : Nat) : 2 ^ rfAlignment q.flags ∣ q.roundUp x :=
  Nat.dvd_mul_left _ _

theorem align_dvd_wordSize (q : Request) : 2 ^ rfAlignment q.flags ∣ wordSize :=
  Nat.pow_dvd_pow 2 (le_of_lt (rfAlignment_lt q.flags))

theorem roundUp_le (hd : 2 ^ rfAlignment q.flags ∣ z) (hx : x ≤ z) : q.roundUp x ≤ z := by
  have hpos : 0 < 2 ^ rfAlignment q.flags := Nat.two_pow_pos _
  rcases hd with ⟨c, rfl⟩
  have hlt : (x + q.amask) / 2 ^ rfAlignment q.flags < c + 1 := by
    rw [Nat.div_lt_iff_lt_mul hpos, Nat.add_mul, Nat.one_mul, Nat.mul_comm c]
    unfold amask
    omega
  rw [roundUp, Nat.mul_comm (2 ^ rfAlignment q.flags)]
  exact Nat.mul_le_mul_right _ (Nat.le_of_lt_succ hlt)

theorem bound_dvd_wordSize (hb : BoundOk q) (hw : q.Words) (hne : q.bound ≠ 0) :
    q.bound ∣ wordSize := by
  rcases hb with hzero | ⟨⟨k, hk⟩, -⟩
  · exact absurd hzero hne
  have hlt := hw.bound
  rw [hk] at hlt ⊢
  exact Nat.pow_dvd_pow 2 (le_of_lt ((Nat.pow_lt_pow_iff_right (by decide)).mp hlt))

-- An aligned address only crosses a boundary that is itself aligned.
theorem align_dvd_bound (hb : BoundOk q) (hy : 2 ^ rfAlignment q.flags ∣ y) (h : q.Over y) :
    2 ^ rfAlignment q.flags ∣ q.bound := by
  rcases hb with hzero | ⟨⟨k, hk⟩, hcount⟩
  · exact absurd hzero h.1
  by_contra hno
  have hle : k ≤ rfAlignment q.flags := by
    by_contra hlt
    refine hno ?_
    rw [hk]
    exact Nat.pow_dvd_pow 2 (by omega)
  have hdvd : q.bound ∣ y := by
    rw [hk]
    exact Nat.dvd_trans (Nat.pow_dvd_pow 2 hle) hy
  have hover := h.2
  rw [Nat.mod_eq_zero_of_dvd hdvd] at hover
  omega

theorem lt_push (h : q.Over y) : y < q.push y := by
  have hpos : 0 < q.bound := Nat.pos_of_ne_zero h.1
  rw [push, if_pos h]
  exact (Nat.div_lt_iff_lt_mul hpos).mp (Nat.lt_succ_self _)

theorem le_place (q : Request) (x : Nat) : x ≤ q.place x := by
  refine le_trans (q.le_roundUp x).1 ?_
  by_cases h : q.Over (q.roundUp x)
  · exact le_of_lt (lt_push h)
  · rw [place, push, if_neg h]

theorem dvd_place (hb : BoundOk q) (x : Nat) : 2 ^ rfAlignment q.flags ∣ q.place x := by
  unfold place push
  split
  case isTrue h => exact Nat.dvd_mul_left_of_dvd (align_dvd_bound hb (q.dvd_roundUp x) h) _
  case isFalse => exact q.dvd_roundUp x

theorem not_over_place (hb : BoundOk q) (x : Nat) : ¬q.Over (q.place x) := by
  unfold place push
  split
  case isTrue h =>
    rintro ⟨hne, hlt⟩
    rw [Nat.mul_mod_left, Nat.zero_add] at hlt
    rcases hb with hzero | ⟨-, hcount⟩
    · exact hne hzero
    · exact Nat.not_lt.mpr hcount hlt
  case isFalse h => exact h

theorem over_iff (q : Request) (y : Nat) :
    (∀ k, ¬(y < k * q.bound ∧ k * q.bound < y + q.count)) ↔ ¬q.Over y := by
  by_cases h : q.bound = 0
  · have hnone : ¬q.Over y := fun hover => hover.1 h
    refine ⟨fun _ => hnone, fun _ k hk => ?_⟩
    rw [h, Nat.mul_zero] at hk
    omega
  · rw [no_multiple_inside (Nat.pos_of_ne_zero h), Over, and_iff_right h]

/-- No address before it is aligned and crosses no boundary. -/
theorem place_le (hx : x ≤ z) (hd : 2 ^ rfAlignment q.flags ∣ z) (hover : ¬q.Over z) :
    q.place x ≤ z := by
  have hround := roundUp_le hd hx
  unfold place push
  split
  case isFalse => exact hround
  case isTrue h =>
  -- The boundary that is crossed would be crossed from there too.
  by_contra hlt
  rw [not_le] at hlt
  refine (q.over_iff z).mpr hover (q.roundUp x / q.bound + 1) ⟨hlt, ?_⟩
  have hdiv := Nat.div_add_mod (q.roundUp x) q.bound
  have hcross := h.2
  rw [Nat.mul_comm] at hdiv
  rw [Nat.add_mul, Nat.one_mul]
  omega

theorem place_mono (hb : BoundOk q) (h : x ≤ y) : q.place x ≤ q.place y :=
  place_le (le_trans h (q.le_place y)) (dvd_place hb y) (not_over_place hb y)

/-! ## The words of a turn -/

theorem mod_align (q : Request) (y : Nat) : y &&& q.amask = y % 2 ^ rfAlignment q.flags :=
  Nat.and_two_pow_sub_one_eq_mod _ _

theorem compl_eq (hx : x < wordSize) : compl x = wordSize - (x + 1) := by
  have hword : wordSize = 2 ^ 64 := rfl
  have hmax : ulongMax = 2 ^ 64 - 1 := rfl
  rw [hword] at hx ⊢
  refine Nat.eq_of_testBit_eq (fun i => ?_)
  rw [compl, hmax, Nat.testBit_xor, Nat.testBit_two_pow_sub_one, Nat.testBit_two_pow_sub_succ hx]
  by_cases hi : i < 64
  · rw [decide_eq_true hi, Bool.true_and, Bool.xor_true]
  have hzero : x.testBit i = false := Nat.testBit_lt_two_pow
    (lt_of_lt_of_le hx (Nat.pow_le_pow_right (by decide) (by omega)))
  rw [decide_eq_false hi, hzero, Bool.false_and, Bool.xor_false]

/-- A boundary in bits: the masks below and above it. -/
theorem bound_bits (hw : q.Words) {k : Nat} (hk : q.bound = 2 ^ k) :
    k < 64 ∧ sub q.bound 1 = 2 ^ k - 1 ∧ q.bmask = 2 ^ 64 - 2 ^ k := by
  have hpos : 0 < 2 ^ k := Nat.two_pow_pos k
  have hlt := hw.bound
  have hone : sub q.bound 1 = 2 ^ k - 1 := by rw [sub_of_le (by omega) hlt, hk]
  rw [hk] at hlt
  refine ⟨(Nat.pow_lt_pow_iff_right (by decide)).mp hlt, hone, ?_⟩
  rw [bmask, hone, compl_eq (by omega), Nat.sub_add_cancel hpos]
  rfl

section

variable (hb : BoundOk q) (hw : q.Words) (hcount : 1 ≤ q.count)
include hb hw hcount

theorem crosses_iff (hy : y < wordSize) :
    (y ^^^ q.last y) &&& q.bmask ≠ 0 ↔ q.Over y := by
  rcases hb with hzero | ⟨⟨k, hk⟩, hle⟩
  · rw [bmask_zero hzero, Nat.and_zero]
    exact ⟨fun h => absurd rfl h, fun h => absurd hzero h.1⟩
  rcases bound_bits hw hk with ⟨hkw, -, hmask⟩
  have hpos : 0 < q.bound := hk ▸ Nat.two_pow_pos k
  have hlast : q.last y < wordSize := Nat.mod_lt _ (by decide)
  have hnext : (y / q.bound + 1) * q.bound ≤ wordSize :=
    next_multiple_le (bound_dvd_wordSize (Or.inr ⟨⟨k, hk⟩, hle⟩) hw hpos.ne') hy
  have hdiv := Nat.div_add_mod y q.bound
  rw [Nat.mul_comm] at hdiv
  rw [Nat.add_mul, Nat.one_mul] at hnext
  rw [hmask, Ne, xor_and_neg_pow hy hlast (le_of_lt hkw), ← hk, Over, and_iff_right hpos.ne']
  by_cases hroom : y + q.count ≤ wordSize
  · rw [last_eq hcount hroom]
    constructor
    · intro hne
      by_contra hin
      refine hne (Nat.div_eq_of_lt_le ?_ ?_).symm
      · omega
      · rw [Nat.add_mul, Nat.one_mul]
        omega
    intro hover heq
    have hdiv' := Nat.div_add_mod (y + q.count - 1) q.bound
    have hmod' := Nat.mod_lt (y + q.count - 1) hpos
    rw [← heq, Nat.mul_comm] at hdiv'
    omega
  -- The start is in the last block, and the end has gone on at zero.
  have hwrap : q.last y = y + q.count - 1 - wordSize := by
    have hcw := hw.count
    have hsum : add y q.count = y + q.count - wordSize := by
      rw [add, Nat.mod_eq_sub_mod (by omega), Nat.mod_eq_of_lt (by omega)]
    rw [Request.last, hsum, sub_of_le (by omega) (by omega)]
    omega
  have hzero : q.last y / q.bound = 0 := Nat.div_eq_of_lt (by omega)
  rw [hzero]
  refine ⟨fun _ => by omega, fun _ h => ?_⟩
  rw [Nat.div_eq_zero_iff] at h
  have htwo : q.bound * 2 ≤ wordSize := by
    rw [hk, ← Nat.pow_succ]
    exact Nat.pow_le_pow_right (by decide) hkw
  omega

/-- The words of a turn are those of the first address. -/
theorem adjust_place (hx : x < wordSize) :
    q.adjust x = q.place x % wordSize := by
  have hround : q.roundUp x ≤ wordSize := roundUp_le q.align_dvd_wordSize (le_of_lt hx)
  have halign : add x q.amask &&& compl q.amask = q.roundUp x % wordSize := by
    by_cases hlt : x + q.amask < wordSize
    · have hle := (q.le_roundUp x).2
      rw [align_eq hlt, Nat.mod_eq_of_lt (by omega)]
    -- The sum goes round to less than the alignment.
    have ha : q.amask < wordSize := by
      have := Nat.le_of_dvd (by decide) q.align_dvd_wordSize
      have hpos : 0 < 2 ^ rfAlignment q.flags := Nat.two_pow_pos _
      unfold amask
      omega
    have hsum : add x q.amask = x + q.amask - wordSize := by
      rw [add, Nat.mod_eq_sub_mod (by omega), Nat.mod_eq_of_lt (by omega)]
    have hfull : q.roundUp x = wordSize := by
      refine le_antisymm hround ?_
      have hle : wordSize / 2 ^ rfAlignment q.flags ≤ (x + q.amask) / 2 ^ rfAlignment q.flags :=
        Nat.div_le_div_right (not_lt.mp hlt)
      calc wordSize = wordSize / 2 ^ rfAlignment q.flags * 2 ^ rfAlignment q.flags :=
            (Nat.div_mul_cancel q.align_dvd_wordSize).symm
        _ ≤ q.roundUp x := Nat.mul_le_mul_right _ hle
    have hcompl : x + q.amask - wordSize &&& compl (2 ^ rfAlignment q.flags - 1) =
        (x + q.amask - wordSize) / 2 ^ rfAlignment q.flags * 2 ^ rfAlignment q.flags :=
      and_compl_mask (by omega) (le_of_lt (rfAlignment_lt q.flags))
    have hsmall : x + q.amask - wordSize < 2 ^ rfAlignment q.flags := by
      have hpos : 0 < 2 ^ rfAlignment q.flags := Nat.two_pow_pos _
      unfold amask
      omega
    rw [hsum, hfull, Nat.mod_self]
    change _ &&& compl (2 ^ rfAlignment q.flags - 1) = 0
    rw [hcompl, Nat.div_eq_of_lt hsmall, Nat.zero_mul]
  have hy : q.roundUp x % wordSize < wordSize := Nat.mod_lt _ (by decide)
  -- Going round to zero does not change whether a boundary is crossed.
  have hover : q.Over (q.roundUp x % wordSize) ↔ q.Over (q.roundUp x) := by
    unfold Over
    by_cases hne : q.bound = 0
    · exact ⟨fun h => absurd hne h.1, fun h => absurd hne h.1⟩
    · rw [Nat.mod_mod_of_dvd _ (bound_dvd_wordSize hb hw hne)]
  rw [adjust, halign]
  by_cases hc : q.Over (q.roundUp x)
  · have hne := hc.1
    have hlt : q.roundUp x < wordSize := by
      refine lt_of_le_of_ne hround (fun heq => ?_)
      have hcross := hc.2
      rw [heq, Nat.mod_eq_zero_of_dvd (bound_dvd_wordSize hb hw hne), Nat.zero_add] at hcross
      exact Nat.not_lt.mpr (hb.resolve_left hne).2 hcross
    rw [if_pos ((crosses_iff hb hw hcount hy).mpr (hover.mpr hc)), Nat.mod_eq_of_lt hlt, place,
      push, if_pos hc]
    rcases (hb.resolve_left hne).1 with ⟨k, hk⟩
    have hpos : 0 < q.bound := Nat.pos_of_ne_zero hne
    have hmod := Nat.mod_lt (q.roundUp x) hpos
    have hdiv := Nat.div_add_mod (q.roundUp x) q.bound
    rw [Nat.mul_comm] at hdiv
    have hlow : q.roundUp x &&& compl q.bmask = q.roundUp x % q.bound := by
      rw [bmask, compl_compl, (bound_bits hw hk).2.1, Nat.and_two_pow_sub_one_eq_mod, hk]
    have hgap : sub q.bound (q.roundUp x % q.bound) = q.bound - q.roundUp x % q.bound :=
      sub_of_le (le_of_lt hmod) hw.bound
    rw [hlow, hgap, add]
    congr 1
    rw [Nat.add_mul, Nat.one_mul]
    omega
  · rw [if_neg (fun h => hc (hover.mp ((crosses_iff hb hw hcount hy).mp h))), place, push, if_neg hc]

/-- The loop takes one turn. -/
theorem adjustLoop_place (hx : x < wordSize) (rEnd fuel : Nat) :
    q.adjustLoop rEnd (fuel + 1) x = some (q.place x % wordSize) := by
  have halign : q.place x % wordSize &&& q.amask = 0 := by
    rw [mod_align, Nat.mod_mod_of_dvd _ q.align_dvd_wordSize, Nat.mod_eq_zero_of_dvd (dvd_place hb x)]
  simp only [adjustLoop, adjust_place hb hw hcount hx]
  rw [if_neg (fun h => h.1 halign)]

end

end Request

theorem fits_iff {q : Request} {a b : Nat} :
    Fits q a b ↔ b + 1 = a + q.count ∧ q.start ≤ a ∧ b ≤ q.end' ∧
      2 ^ rfAlignment q.flags ∣ a ∧ ¬q.Over a := by
  rw [← Request.over_iff]
  constructor
  · intro h
    refine ⟨h.units, h.start, h.end', h.aligned, fun k hk => h.bounded k ⟨hk.1, ?_⟩⟩
    have := h.units
    omega
  · rintro ⟨hunits, hstart, hend, halign, hover⟩
    exact ⟨hunits, hstart, hend, halign, fun k hk => hover k ⟨hk.1, by omega⟩⟩

end FreeBSDKern.Rman
