import Mathlib

/-!
# Buffers Kept in a Chain of Blocks

A buffer that is stored in a chain of equal blocks. A position of the buffer is
a block of the chain and an offset in it, and a part of the buffer is a window
of positions.

The chain grows at the end of the part in use, loses its first block when that
has been read, and is written inside one block at a time. For each of the three
there is a lemma about one position, and the lemmas about windows lift it to a
part of the buffer: what was there is kept, shifted or followed by the new cells.

## Main definitions

* `cell`: What the buffer holds at a position.
* `window`: The cells between two positions.
* `copyIn`: A block after a copy into it.

## Theorems

* `window_append`: Two windows that meet are one.
* `window_succ`: A window without its last cell.
* `cell_insert`: A new block does not move what is before it.
* `cell_tail`: Without its first block the buffer is the same, shifted.
* `cell_copyIn`: A copy into a block changes the positions copied to.
-/

namespace FreeBSDKern.Lib

open Function

section Window

variable {β : Type*}

/-- The values of a function between two positions. -/
def window (f : Nat → β) (b e : Nat) : List β := (List.range' b (e - b)).map f

@[simp] theorem window_length (f : Nat → β) (b e : Nat) : (window f b e).length = e - b := by
  rw [window, List.length_map, List.length_range']

theorem window_of_le (f : Nat → β) {b e : Nat} (h : e ≤ b) : window f b e = [] := by
  rw [window, Nat.sub_eq_zero_of_le h]
  rfl

@[simp] theorem window_self (f : Nat → β) (b : Nat) : window f b b = [] :=
  window_of_le f le_rfl

theorem window_append (f : Nat → β) {b m e : Nat} (hb : b ≤ m) (he : m ≤ e) :
    window f b m ++ window f m e = window f b e := by
  obtain ⟨n, rfl⟩ := Nat.exists_eq_add_of_le hb
  obtain ⟨k, rfl⟩ := Nat.exists_eq_add_of_le he
  have h1 : b + n + k - b = n + k := by omega
  rw [window, window, window, Nat.add_sub_cancel_left, Nat.add_sub_cancel_left, h1,
    ← List.map_append, List.range'_append_1]

theorem window_map {γ : Type*} (f : Nat → β) (g : β → γ) (b e : Nat) :
    (window f b e).map g = window (fun p => g (f p)) b e := by
  rw [window, window, List.map_map]
  rfl

theorem window_congr {f g : Nat → β} {b e : Nat} (h : ∀ p, b ≤ p → p < e → f p = g p) :
    window f b e = window g b e := by
  refine List.map_congr_left (fun p hp => ?_)
  rw [List.mem_range'_1] at hp
  exact h p hp.1 (by omega)

theorem window_shift (f : Nat → β) (d b e : Nat) :
    window (fun p => f (p + d)) b e = window f (b + d) (e + d) := by
  have h1 : e + d - (b + d) = e - b := by omega
  rw [window, window, h1, Nat.add_comm b d, ← List.map_add_range', List.map_map]
  refine List.map_congr_left (fun p _ => ?_)
  rw [comp_apply, Nat.add_comm p d]

/-- A window that holds a given list. -/
theorem window_eq_list {f : Nat → β} {b : Nat} {l : List β}
    (h : ∀ i (hi : i < l.length), f (b + i) = l[i]) : window f b (b + l.length) = l := by
  apply List.ext_getElem
  · rw [window_length, Nat.add_sub_cancel_left]
  intro i h1 h2
  simp only [window, List.getElem_map, List.getElem_range', Nat.one_mul]
  exact h i h2

theorem window_succ (f : Nat → β) {b e : Nat} (h : b ≤ e) :
    window f b (e + 1) = window f b e ++ [f e] := by
  rw [← window_append f h (Nat.le_succ e)]
  have h1 : e + 1 - e = 1 := by omega
  rw [Nat.succ_eq_add_one, window, window, h1]
  rfl

/-- The first cells of a window. -/
theorem window_take (f : Nat → β) {b e : Nat} (n : Nat) (h : b ≤ e) :
    (window f b e).take n = window f b (min e (b + n)) := by
  rw [window, window, ← List.map_take]
  congr 1
  rcases Nat.le_total n (e - b) with hn | hn
  · have h1 : min e (b + n) - b = n := by omega
    rw [h1, List.take_range'_of_length_ge hn]
  · have h1 : min e (b + n) - b = e - b := by omega
    rw [h1, List.take_range'_of_length_le hn]

end Window

section Chain

variable {ι β : Type*} [Inhabited ι]

/-- What the buffer holds at a position, in blocks of `D` cells. -/
def cell (D : Nat) (mem : ι → Nat → β) (chain : List ι) (p : Nat) : β :=
  mem (chain.getD (p / D) default) (p % D)

theorem cell_insert (D : Nat) (mem : ι → Nat → β) (pre post : List ι) (x : ι) {p : Nat}
    (hp : p < pre.length * D) : cell D mem (pre ++ x :: post) p = cell D mem (pre ++ post) p := by
  have hlt : p / D < pre.length := Nat.div_lt_of_lt_mul (by rwa [Nat.mul_comm] at hp)
  rw [cell, cell, List.getD_append _ _ _ _ hlt, List.getD_append _ _ _ _ hlt]

theorem cell_tail (D : Nat) (mem : ι → Nat → β) (chain : List ι) (x : ι) (p : Nat) (hD : 0 < D) :
    cell D mem (x :: chain) (p + D) = cell D mem chain p := by
  rw [cell, cell, Nat.add_div_right p hD, Nat.add_mod_right, List.getD_cons_succ]

/-- A block after a copy into it. -/
def copyIn (block : Nat → β) (off : Nat) (src : List β) (o : Nat) : β :=
  if off ≤ o then src.getD (o - off) (block o) else block o

/-- A copy into the block of a position, up to the end of that block at most. -/
theorem cell_copyIn [DecidableEq ι] {D : Nat} (mem : ι → Nat → β) {chain : List ι}
    (hnodup : chain.Nodup) {e p : Nat} {b : ι} (hb : chain[e / D]? = some b) (src : List β)
    (hsrc : e % D + src.length ≤ D) (hp : p < chain.length * D) :
    cell D (update mem b (copyIn (mem b) (e % D) src)) chain p =
      if e ≤ p then src.getD (p - e) (cell D mem chain p) else cell D mem chain p := by
  have hlt : p / D < chain.length := Nat.div_lt_of_lt_mul (by rwa [Nat.mul_comm] at hp)
  have hget : chain[p / D]? = some (chain.getD (p / D) default) := by
    rw [List.getD_eq_getElem _ _ hlt, List.getElem?_eq_getElem hlt]
  have hpe := Nat.div_add_mod p D
  have hee := Nat.div_add_mod e D
  by_cases hq : p / D = e / D
  · have hpb : chain.getD (p / D) default = b := by
      rw [hq] at hget ⊢
      exact (Option.some.inj (hb.symm.trans hget)).symm
    have hle : e % D ≤ p % D ↔ e ≤ p := by
      rw [hq] at hpe
      omega
    have hsub : p % D - e % D = p - e := by
      rw [hq] at hpe
      omega
    rw [cell, hpb, update_self, copyIn, hsub, cell, hpb]
    simp only [hle]
  have hne : chain.getD (p / D) default ≠ b := by
    intro heq
    rw [heq, ← hb] at hget
    exact hq ((List.getElem?_inj hlt hnodup).mp hget)
  have hcell : cell D (update mem b (copyIn (mem b) (e % D) src)) chain p = cell D mem chain p := by
    rw [cell, update_of_ne hne]
    rfl
  rw [hcell]
  split
  case isTrue hle =>
    -- The position is in a later block, behind everything that was copied.
    have hlen : src.length ≤ p - e := by
      have hdiv : e / D + 1 ≤ p / D := by
        have := Nat.div_le_div_right (c := D) hle
        omega
      have hmul := Nat.mul_le_mul_left D hdiv
      rw [Nat.mul_add, Nat.mul_one] at hmul
      omega
    rw [List.getD_eq_default _ _ hlen]
  case isFalse => rfl

end Chain

end FreeBSDKern.Lib
