import FreeBSDKern.Swap.Free

/-!
# Filling a Range, and the Fresh List

A fill takes a range inside one leaf out of the free blocks whatever its state,
and answers how many of them were free. Only one subtree of each node is on the
way to that leaf. The range may go beyond the last block, as long as its leaf
exists.

A fresh list is written over memory of any content: every node is entirely
allocated, and the place behind the last subtree that exists is marked.

## Theorems

* `blstFill_spec`: A fill takes its range and counts what was free.
* `blstRadixInit_spec`: A fresh list has its shape and no free blocks.
* `radix_createLoop`: The height of a fresh list is enough for its blocks.
-/

namespace FreeBSDKern.Swap

open Function

/-- Counting stops where the blocks do. -/
theorem cnt_bounded (n N : Nat) (F : Nat → Bool) (h : n ≤ N) :
    cnt N (fun i => decide (i < n) && F i) = cnt n F := by
  simp only [cnt, Nat.count_eq_card_filter_range]
  congr 1
  ext i
  simp only [Finset.mem_filter, Finset.mem_range, Bool.and_eq_true, decide_eq_true_eq]
  constructor
  · rintro ⟨-, hi, hF⟩
    exact ⟨hi, hF⟩
  · rintro ⟨hi, hF⟩
    exact ⟨by omega, hi, hF⟩

/-- Blocks that all lie in one subtree are counted there. -/
theorem cnt_child (d n k : Nat) (G : Nat → Bool)
    (hG : ∀ i, i < n → G i = true → k * radix d ≤ i ∧ i < (k + 1) * radix d) :
    cnt n G = cnt (childLen d n k) (fun i => G (k * radix d + i)) := by
  simp only [cnt, Nat.count_eq_card_filter_range]
  symm
  refine Finset.card_bij (fun i _ => k * radix d + i) (fun i hi => ?_) (fun i _ j _ hij => ?_)
    (fun i hi => ?_)
  · rw [Finset.mem_filter, Finset.mem_range, childLen] at hi
    rw [Finset.mem_filter, Finset.mem_range]
    exact ⟨by omega, hi.2⟩
  · omega
  rw [Finset.mem_filter, Finset.mem_range] at hi
  have hb := hG i hi.1 hi.2
  rw [Nat.add_mul, Nat.one_mul] at hb
  refine ⟨i - k * radix d, ?_, by omega⟩
  rw [Finset.mem_filter, Finset.mem_range, childLen, Nat.add_sub_cancel' hb.1]
  exact ⟨by omega, hi.2⟩

theorem blstLeafFill_spec (H : Prop) (m : Mem) (p n blk off count : Nat) (F : Nat → Bool)
    (hn : n ≤ 32) (hblk : 32 ∣ blk) (hpos : 0 < count) (hleaf : off + count ≤ 32)
    (hs : Shape m 0 p n) (h : NodeOk H m 0 p n F) :
    (blstLeafFill m p (blk + off) count).1 = cnt n (fun i => F i && inRange off count i) ∧
      Within m (blstLeafFill m p (blk + off) count).2 0 p n ∧
      NodeOk H (blstLeafFill m p (blk + off) count).2 0 p n (without F off count) := by
  have hmod : (blk + off) % 32 = off := by omega
  have hmask : ∀ i, i < 32 → (rangeMask (blk + off) count).getLsbD i = inRange off count i := by
    intro i hi
    rw [rangeMask_bit (blk + off) count (by omega) i hi, hmod, inRange]
  unfold blstLeafFill
  refine ⟨?_, within_update hn hs _ hs, nodeOk_clear h _ off count hmask⟩
  rw [nblksLoop_spec bmapRadix _ 0 (cnt_le 32 _), Nat.zero_add, ← cnt_bounded n 32 _ hn]
  refine cnt_congr 32 _ _ (fun i hi => ?_)
  rw [BitVec.getLsbD_and, h.1 i hi, hmask i hi, Bool.and_assoc]

/-- The range of a fill lies in one subtree, at the same place of its leaf. -/
theorem fill_child (d : Nat) {off count : Nat} (hleaf : off % 32 + count ≤ 32) :
    off / radix d * radix d ≤ off ∧ off / radix d * radix d ≤ off / 32 * 32 ∧
      off + count ≤ off / radix d * radix d + radix d ∧
      (off - off / radix d * radix d) % 32 = off % 32 := by
  have hlt := Nat.mod_lt off (radix_pos d)
  have hdiv := Nat.div_add_mod off (radix d)
  rw [Nat.mul_comm] at hdiv
  have hdvd : 32 ∣ off / radix d * radix d := Nat.dvd_mul_left_of_dvd (dvd_radix d) _
  have hdvd' := dvd_radix d
  refine ⟨by omega, by omega, by omega, ?_⟩
  omega

/-- The loop stops behind the range. -/
theorem fillLoop_stop (sub : Mem → Nat → Nat → Nat → Nat → Option (Nat × Mem))
    (d scan fuel k allocBlk count blk nblks : Nat) (m : Mem) (h : allocBlk + count ≤ blk) :
    fillLoop sub d scan fuel k allocBlk count blk nblks m = some (nblks, m) := by
  cases fuel with
  | zero => rfl
  | succ fuel =>
    unfold fillLoop
    rw [if_neg (by omega)]

/-- The loop for a range that lies in one subtree. -/
theorem fillLoop_one {sub : Mem → Nat → Nat → Nat → Nat → Option (Nat × Mem)}
    {d scan k blk off count filled : Nat} {m m' : Mem} (hk : k < 16) (hpos : 0 < count)
    (hlo : k * radix d ≤ off) (hhi : off + count ≤ k * radix d + radix d)
    (hhint : (m scan).bighint ≠ -1)
    (hsub : sub m (child scan d k) (blk + off) count (blk + k * radix d) = some (filled, m')) :
    fillLoop sub d scan (metaRadix - k) k (blk + off) count (blk + k * radix d) 0 m =
      some (filled, m') := by
  have hv : (if blk + k * radix d + radix d - (blk + off) > count then count
      else blk + k * radix d + radix d - (blk + off)) = count := by
    split <;> omega
  rw [metaRadix, show 16 - k = (15 - k) + 1 by omega]
  unfold fillLoop
  rw [if_pos (by omega)]
  simp only [hv]
  rw [if_neg hhint, hsub]
  simp only
  rw [fillLoop_stop _ _ _ _ _ _ _ _ _ _ (by omega), Nat.zero_add]

/-- A fill inside one leaf takes its range out of the free blocks and answers
    how many of them were free. -/
theorem blstFill_spec {H : Prop} (d : Nat) : ∀ (m : Mem) (p n blk off count : Nat) (F : Nat → Bool),
    n ≤ radix d → 32 ∣ blk → 0 < count → off % 32 + count ≤ 32 → off / 32 * 32 < n →
    Shape m d p n → NodeOk H m d p n F → ∃ m', blstFill d m p (blk + off) count blk =
        some (cnt n (fun i => F i && inRange off count i), m') ∧
      Within m m' d p n ∧ NodeOk H m' d p n (without F off count) := by
  induction d with
  | zero =>
    intro m p n blk off count F hn hblk hpos hleaf hin hs h
    have hn' : n ≤ 32 := hn
    rcases blstLeafFill_spec H m p n blk off count F hn hblk hpos (by omega) hs h with
      ⟨hfilled, hw, hnode⟩
    refine ⟨_, ?_, hw, hnode⟩
    rw [← hfilled]
    rfl
  | succ d ih =>
    intro m p n blk off count F hn hblk hpos hleaf hin hs h
    have hR := radix_ge d
    have hbig : count ≠ radix (d + 1) := by
      rw [radix_succ]
      omega
    unfold blstFill
    by_cases hzero : (m p).avail = 0
    · rw [if_pos (Or.inr hzero), hzero]
      have hF := fun i hi => cnt_eq_zero n F (h.1.symm.trans hzero) i hi
      have hnone : cnt n (fun i => F i && inRange off count i) = 0 := by
        rw [← cnt_const_false n]
        exact cnt_congr n _ _ (fun i hi => by rw [hF i hi, Bool.false_and])
      refine ⟨_, by rw [hnone], within_update hn hs _ (Int.natCast_nonneg count), ?_⟩
      rw [NodeOk, update_self]
      refine ⟨?_, ?_, fun hlt => absurd hlt (lt_irrefl 0)⟩
      · rw [← cnt_const_false n]
        exact cnt_congr n _ _ (fun i hi => by rw [without, hF i hi, Bool.false_and])
      rintro _ c hc ⟨b, -, hbn, hrun⟩
      have hb := without_le F off count b (hrun b le_rfl (by omega))
      rw [hF b (by omega)] at hb
      cases hb
    rw [if_neg (by omega)]
    rcases alloc_enter hn (by omega) hs h hzero with ⟨m₁, hm₁, hself, hw, hst⟩
    simp only [hm₁]
    rw [if_neg (by omega), Nat.add_sub_cancel_left]
    rcases fill_child d hleaf with ⟨hlo, hleafk, hhi, hmod⟩
    generalize off / radix d = k at hlo hleafk hhi hmod ⊢
    have hkin : k * radix d < n := by omega
    have hk16 := lt_sixteen d n k hn hkin
    -- The leaf of the range exists in the subtree too.
    have hleafin : (off - k * radix d) / 32 * 32 < childLen d n k := by
      have hdvd : 32 ∣ k * radix d := Nat.dvd_mul_left_of_dvd (dvd_radix d) k
      rw [childLen]
      omega
    rcases ih m₁ (child p d k) (childLen d n k) (blk + k * radix d) (off - k * radix d) count _
      (childLen_le d n k) (Nat.dvd_add hblk (Nat.dvd_mul_left_of_dvd (dvd_radix d) k)) hpos
      (by omega) hleafin (hst.shape.2.1 k hkin) (hst.children k hkin) with
      ⟨m', hrun, hw', hnode⟩
    have hshift : ∀ i, inRange off count (k * radix d + i) =
        inRange (off - k * radix d) count i := by
      intro i
      simp only [inRange, decide_eq_decide]
      omega
    have hout : ∀ i, i < k * radix d ∨ (k + 1) * radix d ≤ i → inRange off count i = false := by
      intro i hi
      rw [Nat.add_mul, Nat.one_mul] at hi
      exact inRange_false (by omega)
    have hfilled : cnt (childLen d n k)
        (fun i => F (k * radix d + i) && inRange (off - k * radix d) count i) =
        cnt n (fun i => F i && inRange off count i) := by
      rw [cnt_child d n k (fun i => F i && inRange off count i) (fun i _ hi => ?_)]
      · simp only [hshift]
      by_contra hc
      rw [hout i (by omega), Bool.and_false] at hi
      cases hi
    have hhint : (m₁ p).bighint ≠ -1 := by
      have := hst.shape.1
      omega
    rw [show blk + k * radix d + (off - k * radix d) = blk + off by omega, hfilled] at hrun
    rw [fillLoop_one hk16 hpos hlo hhi hhint hrun]
    rcases parent_of_child (G := without F off count) hn hst.shape hkin hw' hst.children
      (hnode.congr d (childLen_le d n k) (fun _ _ _ => rfl) (fun i _ => by
        simp only [without, hshift])) (fun i _ hi => by
        rw [without, hout i hi, Bool.not_false, Bool.and_true]) with ⟨hself', hw'', hc⟩
    refine ⟨_, rfl, (hw.trans hw'').trans (within_update hn hw''.2 _ ?_), ?_⟩
    · rw [hself']
      exact hst.shape.1
    refine nodeOk_of_children (hc.congr hn (fun i hi _ =>
      update_of_ne (by omega) _ _)) ?_ ?_
    · rw [update_self, hself']
      have hsplit := cnt_split n F (inRange off count)
      have havail := hst.avail
      have hdef : cnt n (without F off count) = cnt n (fun i => F i && !inRange off count i) :=
        rfl
      simp only
      omega
    · rw [update_self, hself']
      exact hst.hint.mono (fun i _ hi => without_le F off count i hi)

/-- The loop writes the subtrees that exist, and the terminator behind them. -/
theorem initLoop_spec (d p n : Nat) (hn : n ≤ radix (d + 1))
    (hsub : ∀ m p n, 0 < n → n ≤ radix d → Within m (blstRadixInit d m p n).1 d p n) (fuel : Nat) :
    ∀ (k memindex : Nat) (m : Mem), fuel + k = 16 → (k = 0 ∨ (k - 1) * radix d < n) → 0 < n →
      (∀ j, j < k → Shape m d (child p d j) (childLen d n j)) →
      (∀ i, ¬ (p < i ∧ i ≤ p + skip (d + 1)) →
        (initLoop (blstRadixInit d) d p fuel k (n - k * radix d) memindex m).1 i = m i) ∧
      (∀ j, j * radix d < n → Shape (initLoop (blstRadixInit d) d p fuel k (n - k * radix d)
        memindex m).1 d (child p d j) (childLen d n j)) ∧
      ∀ j, j < 15 → j * radix d < n → n ≤ (j + 1) * radix d →
        ((initLoop (blstRadixInit d) d p fuel k (n - k * radix d) memindex m).1
          (child p d (j + 1))).bighint = -1 := by
  have hR := radix_pos d
  induction fuel with
  | zero =>
    intro k memindex m hk hprev hpos hdone
    rw [show k = 16 by omega] at hprev hdone
    refine ⟨fun _ _ => rfl, fun j hj => hdone j (lt_sixteen d n j hn hj), fun j hj _ hle => ?_⟩
    -- All sixteen subtrees exist.
    have : (j + 1) * radix d ≤ 15 * radix d := Nat.mul_le_mul_right _ (by omega)
    omega
  | succ fuel ih =>
    intro k memindex m hk hprev hpos hdone
    have hmul : (k + 1) * radix d = k * radix d + radix d := by rw [Nat.add_mul, Nat.one_mul]
    have hbk := child_bounds p d k (by omega)
    by_cases hin : k * radix d < n
    · -- The subtree is written, as large as the blocks that are left.
      have hstep : ∃ memindex', initLoop (blstRadixInit d) d p (fuel + 1) k (n - k * radix d)
          memindex m = initLoop (blstRadixInit d) d p fuel (k + 1) (n - (k + 1) * radix d)
            memindex' (blstRadixInit d m (child p d k) (childLen d n k)).1 := by
        by_cases hfull : n - k * radix d ≥ radix d
        · rw [childLen, Nat.min_eq_left hfull, hmul, Nat.sub_add_eq]
          refine ⟨1 + k * (skip (d + 1) / metaRadix) +
            (blstRadixInit d m (child p d k) (radix d)).2, ?_⟩
          conv_lhs => unfold initLoop
          rw [if_pos hfull]
          rfl
        rw [childLen, Nat.min_eq_right (by omega), hmul,
          show n - (k * radix d + radix d) = 0 by omega]
        refine ⟨1 + k * (skip (d + 1) / metaRadix) +
          (blstRadixInit d m (child p d k) (n - k * radix d)).2, ?_⟩
        conv_lhs => unfold initLoop
        rw [if_neg hfull, if_pos (by omega)]
        rfl
      rcases hstep with ⟨memindex', heq⟩
      rw [heq]
      rcases hsub m (child p d k) (childLen d n k) (childLen_pos d n k hin) (childLen_le d n k) with
        ⟨hout, hshape⟩
      rcases ih (k + 1) memindex' _ (by omega) (Or.inr (by rwa [Nat.add_sub_cancel])) hpos
        (fun j hj => by
          rcases Nat.lt_succ_iff_lt_or_eq.mp hj with hlt | rfl
          · have hdis := child_disjoint p d j k hlt
            exact (hdone j hlt).congr d (childLen_le d n j) (fun i hi hi' => hout i (by omega))
          · exact hshape) with ⟨hkeep, hsh, hterm⟩
      exact ⟨fun i hi => (hkeep i hi).trans (hout i (by omega)), hsh, hterm⟩
    have hzero : n - k * radix d = 0 := by omega
    rw [hzero]
    unfold initLoop
    rw [if_neg (by omega), if_neg (lt_irrefl 0)]
    have hplace : p + (1 + k * (skip (d + 1) / metaRadix)) = child p d k := rfl
    simp only [hplace]
    have hk0 : k ≠ 0 := by
      rintro rfl
      omega
    have hprev' : (k - 1) * radix d < n := by omega
    refine ⟨fun i hi => update_of_ne ?_ _ _, fun j hj => ?_, fun j hj hlt hle => ?_⟩
    · rintro rfl
      exact hi ⟨hbk.1, by omega⟩
    · have hjk : j < k := by
        by_contra hge
        have : k * radix d ≤ j * radix d := Nat.mul_le_mul_right _ (by omega)
        omega
      have hdis := child_disjoint p d j k hjk
      refine (hdone j hjk).congr d (childLen_le d n j) (fun i hi hi' =>
        update_of_ne ?_ _ _)
      rintro rfl
      omega
    -- The terminator is behind the last subtree that exists.
    have hjk : j + 1 = k := by
      have hjk : j < k := by
        by_contra hge
        have : k * radix d ≤ j * radix d := Nat.mul_le_mul_right _ (by omega)
        omega
      by_contra hne
      have : (j + 1) * radix d ≤ (k - 1) * radix d := Nat.mul_le_mul_right _ (by omega)
      omega
    rw [hjk, update_self]

/-- A fresh subtree is written over memory of any content. -/
theorem blstRadixInit_shape (d : Nat) : ∀ (m : Mem) (p n : Nat), 0 < n → n ≤ radix d →
    Within m (blstRadixInit d m p n).1 d p n := by
  induction d with
  | zero =>
    intro m p n _ _
    refine ⟨fun i hi => update_of_ne (by omega) _ _, ?_⟩
    change 0 ≤ (update m p { m p with bighint := 0, bitmap := 0 } p).bighint
    rw [update_self]
  | succ d ih =>
    intro m p n hpos hn
    unfold blstRadixInit
    rcases initLoop_spec d p n hn ih metaRadix 0 0
      (update m p { m p with bighint := 0, avail := 0 }) rfl (Or.inl rfl) hpos
      (fun j hj => absurd hj (Nat.not_lt_zero j)) with ⟨hkeep, hshape, hterm⟩
    rw [Nat.zero_mul, Nat.sub_zero] at hkeep hshape hterm
    refine ⟨fun i hi => ?_, ?_, hshape, hterm⟩
    · rw [hkeep i (by omega), update_of_ne (by omega)]
    · rw [hkeep p (by omega), update_self]

theorem blstRadixInit_spec (H : Prop) (d : Nat) (m : Mem) (p n : Nat) (hpos : 0 < n)
    (hn : n ≤ radix d) : NodeOk H (blstRadixInit d m p n).1 d p n (fun _ => false) := by
  cases d with
  | zero => exact nodeOk_allAllocated H _ 0 p n (m p) (update_self _ _ _)
  | succ d =>
    refine nodeOk_allAllocated H _ (d + 1) p n (m p) ?_
    unfold blstRadixInit
    rcases initLoop_spec d p n hn (blstRadixInit_shape d) metaRadix 0 0
      (update m p { m p with bighint := 0, avail := 0 }) rfl (Or.inl rfl) hpos
      (fun j hj => absurd hj (Nat.not_lt_zero j)) with ⟨hkeep, -, -⟩
    rw [Nat.zero_mul, Nat.sub_zero] at hkeep
    rw [hkeep p (by omega), update_self]
    rfl

theorem radix_createLoop (blocks fuel : Nat) : ∀ d, blocks ≤ radix d + fuel →
    blocks ≤ radix (createLoop blocks fuel d) := by
  induction fuel with
  | zero => intro d h; exact h
  | succ fuel ih =>
    intro d h
    unfold createLoop
    by_cases hlt : radix d < blocks
    · rw [if_pos hlt]
      refine ih (d + 1) ?_
      have := radix_pos d
      rw [radix_succ]
      omega
    · rw [if_neg hlt]
      omega

end FreeBSDKern.Swap
