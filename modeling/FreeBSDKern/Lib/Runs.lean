import FreeBSDKern.Lib.BlockChain

/-!
# Maximal Runs in a Bit Map

The maximal runs of set bits of a map are the pieces between its clear bits that
are not empty. A map is a window of a function to `Bool`.

When a bit changes, the runs that end before it and those that start behind it
become one with it, or one becomes two. All other runs stay. `runs_join` says so
for both directions at once.

## Main definitions

* `runs`: The lengths of the maximal runs of a map.
* `piece`: A run, unless it is empty.
* `MaximalRun`: A maximal run at a place.

## Theorems

* `runs_sep`: A clear bit separates the runs.
* `runs_join`: The runs with one bit clear and with it set.
* `maximalRun_first`: The runs from a place on.
* `count_runs`: The runs are the places of the maximal runs.
* `exists_le_run`: A row of set bits is part of a maximal run.
-/

namespace FreeBSDKern.Lib

open Function

/-- The lengths of the maximal runs of `true`: of the pieces between the `false`
    that are not empty. -/
def runs (l : List Bool) : List Nat := ((l.splitOn false).map List.length).filter (0 < ·)

/-- A run, unless it is empty. -/
def piece (m : Nat) : List Nat := if m = 0 then [] else [m]

theorem runs_nil : runs [] = [] := rfl

theorem runs_sep (a b : List Bool) : runs (a ++ false :: b) = runs a ++ runs b := by
  rw [runs, List.splitOn_append_cons_self, List.map_append, List.filter_append, runs, runs]

theorem runs_replicate (m : Nat) : runs (List.replicate m true) = piece m := by
  have hnot : false ∉ List.replicate m true := by simp
  rw [runs, List.splitOn_eq_singleton hnot, List.map_singleton, List.length_replicate, piece]
  by_cases hm : m = 0
  · rw [if_pos hm, hm]
    rfl
  · rw [if_neg hm, List.filter_cons_of_pos (by simp; omega), List.filter_nil]

section Map

variable {f : Nat → Bool}

theorem window_true {s e : Nat} (h : ∀ i, s ≤ i → i < e → f i = true) :
    window f s e = List.replicate (e - s) true := by
  refine List.eq_replicate_iff.mpr ⟨window_length f s e, fun b hb => ?_⟩
  obtain ⟨i, hi, rfl⟩ := List.mem_map.mp hb
  rw [List.mem_range'_1] at hi
  exact h i hi.1 (by omega)

-- A map that ends in a clear bit is separated from what follows.
theorem runs_window_append {k : Nat} (h : 0 < k → f (k - 1) = false) (l : List Bool) :
    runs (window f 0 k ++ l) = runs (window f 0 k) ++ runs l := by
  cases k with
  | zero => rw [window_self, runs_nil, List.nil_append, List.nil_append]
  | succ k =>
    have hlast : f k = false := h (Nat.succ_pos k)
    rw [window_succ f zero_le, hlast, List.append_assoc, List.singleton_append, runs_sep,
      runs_sep, runs_nil, List.append_nil]

-- So is one that starts with a clear bit from what goes before.
theorem runs_append_window {s e : Nat} (h : s < e → f s = false) (l : List Bool) :
    runs (l ++ window f s e) = runs l ++ runs (window f s e) := by
  by_cases hlt : s < e
  · have hone : window f s (s + 1) = [false] := by
      rw [window_succ f le_rfl, window_self, h hlt, List.nil_append]
    rw [← window_append f (Nat.le_succ s) hlt, Nat.succ_eq_add_one, hone, List.singleton_append,
      runs_sep]
    exact congrArg (runs l ++ ·) (runs_sep [] _).symm
  · rw [window_of_le f (not_lt.mp hlt), runs_nil, List.append_nil, List.append_nil]

/-- Clear bits at the end make no difference. -/
theorem runs_append_clear {s e : Nat} (h : ∀ i, s ≤ i → i < e → f i = false) (l : List Bool) :
    runs (l ++ window f s e) = runs l := by
  induction e with
  | zero => rw [window_of_le f zero_le, List.append_nil]
  | succ e ih =>
    rcases lt_or_ge e s with hlt | hge
    · rw [window_of_le f hlt, List.append_nil]
    · rw [window_succ f hge, h e hge (Nat.lt_succ_self e), ← List.append_assoc, runs_sep, runs_nil,
        List.append_nil, ih (fun i hi hlt => h i hi (Nat.lt_succ_of_lt hlt))]

/-- The set bits from a place on. -/
theorem exists_set_ahead (f : Nat → Bool) (N : Nat) : ∀ (n s : Nat), s + n = N →
    ∃ m, s + m ≤ N ∧ (∀ i, s ≤ i → i < s + m → f i = true) ∧ (s + m < N → f (s + m) = false) := by
  intro n
  induction n with
  | zero =>
    intro s hs
    exact ⟨0, by omega, fun i _ _ => by omega, fun _ => by omega⟩
  | succ n ih =>
    intro s hs
    cases hfs : f s with
    | false => exact ⟨0, by omega, fun i _ _ => by omega, fun _ => hfs⟩
    | true =>
      obtain ⟨m, hm, hset, hclear⟩ := ih (s + 1) (by omega)
      refine ⟨m + 1, by omega, fun i hi hlt => ?_, fun hlt => ?_⟩
      · by_cases his : i = s
        · rw [his, hfs]
        · exact hset i (by omega) (by omega)
      have hadd : s + (m + 1) = s + 1 + m := by omega
      rw [hadd]
      exact hclear (by omega)

/-- The set bits before a place. -/
theorem exists_set_behind (f : Nat → Bool) (p : Nat) :
    ∃ m, m ≤ p ∧ (∀ i, p - m ≤ i → i < p → f i = true) ∧ (m < p → f (p - m - 1) = false) := by
  induction p with
  | zero => exact ⟨0, Nat.le_refl 0, fun i _ _ => by omega, fun _ => by omega⟩
  | succ p ih =>
    cases hfp : f p with
    | false =>
      refine ⟨0, zero_le, fun i _ _ => by omega, fun _ => ?_⟩
      rw [Nat.sub_zero, Nat.add_sub_cancel, hfp]
    | true =>
      obtain ⟨m, hm, hset, hclear⟩ := ih
      refine ⟨m + 1, by omega, fun i hi hlt => ?_, fun hlt => ?_⟩
      · by_cases hip : i = p
        · rw [hip, hfp]
        · exact hset i (by omega) (by omega)
      have hsub : p + 1 - (m + 1) - 1 = p - m - 1 := by omega
      rw [hsub]
      exact hclear (by omega)

/-- A map around a row of set bits that is bounded on both sides. -/
theorem runs_around {N s m : Nat} (hle : s + m ≤ N) (hset : ∀ i, s ≤ i → i < s + m → f i = true)
    (hbefore : 0 < s → f (s - 1) = false) (hbehind : s + m < N → f (s + m) = false) :
    runs (window f 0 N) = runs (window f 0 s) ++ piece m ++ runs (window f (s + m) N) := by
  rw [← window_append f (Nat.zero_le (s + m)) hle, runs_append_window hbehind,
    ← window_append f zero_le (Nat.le_add_right s m), runs_window_append hbefore,
    window_true hset, Nat.add_sub_cancel_left, runs_replicate]

/-- With a bit clear there is a run that ends before it and one that starts behind
    it, unless they are empty. With the bit set they are one. -/
theorem runs_join (f : Nat → Bool) {N p : Nat} (hp : p < N) : ∃ back forw before behind,
    back ≤ p ∧ (∀ i, p - back ≤ i → i < p → f i = true) ∧ (back < p → f (p - back - 1) = false) ∧
    p + 1 + forw ≤ N ∧ (∀ i, p + 1 ≤ i → i < p + 1 + forw → f i = true) ∧
      (p + 1 + forw < N → f (p + 1 + forw) = false) ∧
    runs (window (update f p false) 0 N) = before ++ piece back ++ (piece forw ++ behind) ∧
    runs (window (update f p true) 0 N) = before ++ piece (back + 1 + forw) ++ behind := by
  obtain ⟨back, hback, hsetb, hclearb⟩ := exists_set_behind f p
  obtain ⟨forw, hforw, hsetf, hclearf⟩ := exists_set_ahead f N (N - (p + 1)) (p + 1) (by omega)
  refine ⟨back, forw, runs (window f 0 (p - back)), runs (window f (p + 1 + forw) N), hback, hsetb,
    hclearb, hforw, hsetf, hclearf, ?_, ?_⟩
  · -- The clear bit separates the two parts of the map.
    have hleft : window (update f p false) 0 p = window f 0 p :=
      window_congr (fun i _ hi => update_of_ne (by omega) _ _)
    have hright : window (update f p false) (p + 1) N = window f (p + 1) N :=
      window_congr (fun i hi _ => update_of_ne (by omega) _ _)
    have hmid : window (update f p false) p (p + 1) = [false] := by
      rw [window_succ _ le_rfl, window_self, update_self, List.nil_append]
    have hsplit : window (update f p false) 0 N = window f 0 p ++ false :: window f (p + 1) N := by
      rw [← window_append _ zero_le (le_of_lt hp), hleft,
        ← window_append _ (Nat.le_succ p) hp, Nat.succ_eq_add_one, hmid, hright,
        List.singleton_append]
    have hpart := runs_around (f := f) (N := p) (s := p - back) (m := back) (by omega)
      (fun i hi hlt => hsetb i hi (by omega)) (fun _ => hclearb (by omega)) (fun hlt => by omega)
    have hend : p - back + back = p := by omega
    rw [hend, window_self, runs_nil, List.append_nil] at hpart
    have hrest : runs (window f (p + 1) N) = piece forw ++ runs (window f (p + 1 + forw) N) := by
      rw [← window_append f (Nat.le_add_right (p + 1) forw) hforw, runs_append_window hclearf,
        window_true hsetf, Nat.add_sub_cancel_left, runs_replicate]
    rw [hsplit, runs_sep, hpart, hrest]
  have hsum : p - back + (back + 1 + forw) = p + 1 + forw := by omega
  have hjoined := runs_around (f := update f p true) (N := N) (s := p - back)
    (m := back + 1 + forw) (by omega) (fun i hi hlt => ?_) (fun hpos => ?_) (fun hlt => ?_)
  · rw [hjoined, hsum]
    congr 2
    · exact congrArg runs (window_congr (fun i _ hi => update_of_ne (by omega) _ _))
    · exact window_congr (fun i hi _ => update_of_ne (by omega) _ _)
  · by_cases hip : i = p
    · rw [hip, update_self]
    rw [update_of_ne hip]
    rcases Nat.lt_or_gt_of_ne hip with hlt' | hgt
    · exact hsetb i hi hlt'
    · exact hsetf i (by omega) (by omega)
  · rw [update_of_ne (by omega)]
    exact hclearb (by omega)
  rw [hsum] at hlt ⊢
  rw [update_of_ne (by omega)]
  exact hclearf hlt

theorem exists_le_run {N p m : Nat} (hm : 0 < m) (hle : p + m ≤ N)
    (hset : ∀ i, p ≤ i → i < p + m → f i = true) : ∃ r ∈ runs (window f 0 N), m ≤ r := by
  obtain ⟨back, hback, hsetb, hclearb⟩ := exists_set_behind f p
  obtain ⟨forw, hforw, hsetf, hclearf⟩ := exists_set_ahead f N (N - (p + m)) (p + m) (by omega)
  have hsum : p - back + (back + m + forw) = p + m + forw := by omega
  have hruns := runs_around (f := f) (N := N) (s := p - back) (m := back + m + forw) (by omega)
    (fun i hi hlt => ?_) (fun hpos => hclearb (by omega)) (by rw [hsum]; exact hclearf)
  · refine ⟨back + m + forw, ?_, by omega⟩
    rw [hruns, piece, if_neg (by omega)]
    simp
  by_cases hip : i < p
  · exact hsetb i hi hip
  by_cases hipm : i < p + m
  · exact hset i (by omega) hipm
  · exact hsetf i (by omega) (by omega)

/-! ## Counting the runs -/

variable {N p k : Nat}

/-- A run of set bits of a map of `N` that is bounded on both sides. -/
def MaximalRun (f : Nat → Bool) (N k p : Nat) : Prop :=
  p + k ≤ N ∧ (∀ i, p ≤ i → i < p + k → f i = true) ∧ (p = 0 ∨ f (p - 1) = false) ∧
    (p + k = N ∨ f (p + k) = false)

theorem maximalRun_congr {g : Nat → Bool} (h : ∀ i < N, f i = g i) (hk : 0 < k) :
    MaximalRun f N k p ↔ MaximalRun g N k p := by
  refine and_congr_right (fun hle => and_congr ?_ (and_congr ?_ ?_))
  · exact forall₃_congr (fun i _ hi => by rw [h i (by omega)])
  · refine or_congr_right' (fun hp => ?_)
    rw [h (p - 1) (by omega)]
  · refine or_congr_right' (fun hN => ?_)
    rw [h (p + k) (by omega)]

/-- The runs of a map are those before its last one, and that one. -/
theorem maximalRun_last {s : Nat} (hk : 0 < k) (hs : s ≤ N) (hset : ∀ i, s ≤ i → i < N → f i = true)
    (hclear : 0 < s → f (s - 1) = false) :
    MaximalRun f N k p ↔ MaximalRun f (s - 1) k p ∨ p = s ∧ k = N - s := by
  constructor
  · rintro ⟨hle, hrun, hb, he⟩
    rcases Nat.lt_trichotomy p s with hlt | rfl | hgt
    · have hend : p + k ≤ s - 1 := by
        by_contra hgt
        exact Bool.false_ne_true ((hclear (by omega)).symm.trans (hrun _ (by omega) (by omega)))
      exact .inl ⟨hend, hrun, hb, .inr (he.resolve_left (by omega))⟩
    · refine .inr ⟨rfl, ?_⟩
      by_contra hne
      exact Bool.false_ne_true
        ((he.resolve_left (by omega)).symm.trans (hset _ (by omega) (by omega)))
    · exact absurd ((hb.resolve_left (by omega)).symm.trans (hset _ (by omega) (by omega)))
        Bool.false_ne_true
  rintro (⟨hle, hrun, hb, he⟩ | ⟨rfl, rfl⟩)
  · refine ⟨by omega, hrun, hb, .inr ?_⟩
    rcases he with he | he
    · rw [he]
      exact hclear (by omega)
    · exact he
  · exact ⟨by omega, fun i hi hlt => hset i hi (by omega),
      (Nat.eq_zero_or_pos p).imp_right hclear, .inl (by omega)⟩

/-- The runs from a place on are the first one, which starts at `z` and ends at
    `o`, and those behind it. -/
theorem maximalRun_first {z o : Nat} (hk : 0 < k) (hpz : p ≤ z) (hzo : z < o) (hoN : o ≤ N)
    (hskip : ∀ i, p ≤ i → i < z → f i = false) (hrun : ∀ i, z ≤ i → i < o → f i = true)
    (hstart : z = 0 ∨ f (z - 1) = false) (hend : o = N ∨ f o = false) {a : Nat} :
    p ≤ a ∧ MaximalRun f N k a ↔ a = z ∧ k = o - z ∨ o ≤ a ∧ MaximalRun f N k a := by
  have hboth : ∀ {i}, f i = true → f i = false → False := fun h h' => nomatch h.symm.trans h'
  constructor
  · rintro ⟨ha, hr⟩
    by_cases hoa : o ≤ a
    · exact .inr ⟨hoa, hr⟩
    rcases hr with ⟨hle, hset, hbefore, hbehind⟩
    have hza : z ≤ a := by
      by_contra hlt
      exact hboth (hset a le_rfl (by omega)) (hskip a ha (by omega))
    have haz : a = z := by
      by_contra hne
      rcases hbefore with h | h
      · omega
      · exact hboth (hrun (a - 1) (by omega) (by omega)) h
    subst haz
    refine .inl ⟨rfl, ?_⟩
    rcases Nat.lt_trichotomy (a + k) o with hlt | heq | hgt
    · rcases hbehind with h | h
      · omega
      · exact (hboth (hrun (a + k) (by omega) hlt) h).elim
    · omega
    rcases hend with h | h
    · omega
    · exact (hboth (hset o (by omega) hgt) h).elim
  rintro (⟨rfl, rfl⟩ | ⟨ha, hr⟩)
  · have hsum : a + (o - a) = o := Nat.add_sub_cancel' hzo.le
    exact ⟨hpz, hsum.symm ▸ hoN, fun i hlo hi => hrun i hlo (by omega), hstart, hsum.symm ▸ hend⟩
  · exact ⟨by omega, hr⟩

theorem count_piece (hk : 0 < k) (m : Nat) : (piece m).count k = if k = m then 1 else 0 := by
  rw [piece]
  split
  case isTrue hm => rw [if_neg (by omega), List.count_nil]
  case isFalse =>
    rw [List.count_singleton]
    exact if_congr (by rw [beq_iff_eq, eq_comm]) rfl rfl

open Classical in
/-- How many of the runs have a length. -/
theorem count_runs (f : Nat → Bool) (hk : 0 < k) (N : Nat) :
    (runs (window f 0 N)).count k = ((Finset.range N).filter (MaximalRun f N k)).card := by
  induction N using Nat.strong_induction_on with
  | _ N ih =>
    rcases Nat.eq_zero_or_pos N with rfl | hN
    · rw [window_self, runs_nil, Finset.range_zero, Finset.filter_empty]
      rfl
    obtain ⟨m, hm, hset, hclear⟩ := exists_set_behind f N
    obtain ⟨s, rfl⟩ := Nat.exists_eq_add_of_le' hm
    rw [Nat.add_sub_cancel] at hset hclear
    have hclear : 0 < s → f (s - 1) = false := fun hs => hclear (by omega)
    have hfront : runs (window f 0 s) = runs (window f 0 (s - 1)) := by
      rw [← window_append f (Nat.zero_le (s - 1)) (Nat.sub_le s 1), runs_append_clear]
      intro i hi hlt
      rw [show i = s - 1 by omega]
      exact hclear (by omega)
    have hmem : ∀ n p, p ∈ (Finset.range n).filter (MaximalRun f n k) ↔ MaximalRun f n k p := by
      intro n p
      rw [Finset.mem_filter, Finset.mem_range]
      exact and_iff_right_of_imp (fun h => lt_of_lt_of_le (Nat.lt_add_of_pos_right hk) h.1)
    have hlast : ∀ p, MaximalRun f (s + m) k p ↔ MaximalRun f (s - 1) k p ∨ p = s ∧ k = m := by
      intro p
      rw [maximalRun_last hk (Nat.le_add_right s m) hset hclear, Nat.add_sub_cancel_left]
    rw [runs_around (Nat.le_refl (s + m)) hset hclear (fun h => absurd h (lt_irrefl _)),
      window_self, runs_nil, List.append_nil, List.count_append, hfront, ih (s - 1) (by omega),
      count_piece hk]
    split
    case isTrue hkm =>
      have hnew : s ∉ (Finset.range (s - 1)).filter (MaximalRun f (s - 1) k) := fun h =>
        absurd ((hmem _ _).mp h).1 (by omega)
      rw [← Finset.card_insert_of_notMem hnew]
      congr 1
      ext p
      rw [Finset.mem_insert, hmem, hmem, hlast, and_iff_left hkm, or_comm]
    case isFalse hkm =>
    rw [Nat.add_zero]
    congr 1
    ext p
    rw [hmem, hmem, hlast, or_iff_left (fun h => hkm h.2)]

end Map

end FreeBSDKern.Lib
