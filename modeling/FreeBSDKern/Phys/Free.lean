import FreeBSDKern.Phys.Blocks

/-!
# Freeing Pages

A block that is freed is joined with its buddy as long as that is free and of the
same size, and enters its queue when it no longer is. A run of pages is freed in
blocks, first in ever larger ones as the alignment of the first page allows, then
in ever smaller ones as the number of pages does.

The pages of a run may be of several pools, and then the blocks it is cut into
must not be. No block is larger than the largest there is, so it is enough that
the pages that lie in the same one of those have the same pool. This is what
`LooseRun` asks for.

## Theorems

* `coalesce_spec`: The loop ends with a block that cannot be joined further.
* `vmPhysFreePages_good`: The pages of the block become free.
* `vmPhysFreeContig_good`: The pages of the run become free.
-/

namespace FreeBSDKern.Phys

open Lib

variable {c : Conf} {st : Pages} {F : Set Nat} {m k n : Nat}

theorem one_shiftLeft (k : Nat) : 1 <<< k = 2 ^ k := by rw [Nat.shiftLeft_eq, Nat.one_mul]

/-- The segment of the first page of a block. -/
theorem Loose.holds (h : Loose c st F m k) : segOf c m ∈ c.segs ∧ (segOf c m).Holds m ∧
    (segOf c m).start ≤ toPhys m ∧ toPhys (m + 2 ^ k) ≤ (segOf c m).stop :=
  h.inSeg.holds le_rfl (Nat.lt_add_of_pos_right (Nat.two_pow_pos k))

/-- The buddy of a block in its segment is free and of the same order. -/
theorem Good.buddy_block (h : Good c st F) (hm : Loose c st F m k)
    (hholds : (segOf c m).Holds (buddy m k)) (hb : st.order (buddy m k) = k) :
    segOf c (buddy m k) = segOf c m ∧ Set.Ico (buddy m k) (buddy m k + 2 ^ k) ⊆ F ∧
      InSeg c (floorTo m (k + 1)) (2 ^ (k + 1)) := by
  have hblt : st.order (buddy m k) < c.nfreeorder := by rw [hb]; exact hm.lt
  have hseg := segOf_eq hm.holds.1 hholds
  have hin := h.ok.inside (buddy m k) hblt
  have hsub := h.block_sub hblt
  rw [hb] at hin hsub
  refine ⟨hseg, hsub, segOf c m, hm.holds.1, ?_, ?_⟩
  all_goals
    have hspan := hin.holds le_rfl (Nat.lt_add_of_pos_right (Nat.two_pow_pos k))
    rw [hseg] at hspan
    have hpow : 2 ^ (k + 1) = 2 ^ k + 2 ^ k := by rw [Nat.pow_succ, Nat.mul_two]
    rcases floorTo_buddy hm.dvd with ⟨hf, hbud⟩ | ⟨hf, hbud⟩
  · rw [hf]
    exact hm.holds.2.2.1
  · rw [hf]
    exact hspan.2.2.1
  · rw [hf, hpow, ← Nat.add_assoc, ← hbud]
    exact hspan.2.2.2
  · rw [hf, hpow, ← Nat.add_assoc, hbud]
    exact hm.holds.2.2.2

/-- The state after the buddy was taken from its queue and given the pool of the
    block. -/
def joinBuddy (c : Conf) (st : Pages) (m k : Nat) : Pages :=
  ensurePool (st.pool m)
    (vmFreelistRem c st ((segOf c m).freeQueues (st.pool (buddy m k))) (buddy m k) k) (buddy m k) k

theorem joinBuddy_pool_of_notMem {p : Nat}
    (hp : p ∉ Set.Ico (buddy m k) (buddy m k + 2 ^ k)) :
    (joinBuddy c st m k).pool p = st.pool p := by
  rw [joinBuddy, ensurePool_of_notMem hp, rem_pool]

/-- One turn of the loop joins the block with its buddy. -/
theorem joinBuddy_spec (h : Good c st F) (hm : Loose c st F m k) (hk : k + 1 < c.nfreeorder)
    (hholds : (segOf c m).Holds (buddy m k)) (hb : st.order (buddy m k) = k) :
    Good c (joinBuddy c st m k) (F \ Set.Ico (buddy m k) (buddy m k + 2 ^ k)) ∧
      Loose c (joinBuddy c st m k) (F \ Set.Ico (buddy m k) (buddy m k + 2 ^ k))
        (floorTo m (k + 1)) (k + 1) := by
  rcases h.buddy_block hm hholds hb with ⟨hseg, hsub, hinSeg⟩
  have hdis : Disjoint (Set.Ico m (m + 2 ^ k)) (Set.Ico (buddy m k) (buddy m k + 2 ^ k)) :=
    hm.disjoint.mono_right hsub
  have hone : OnePool st (buddy m k) k := by
    have := h.ok.pools (buddy m k) (by rw [hb]; exact hm.lt)
    rwa [hb] at this
  have hpool : ∀ p ∈ Set.Ico m (m + 2 ^ k), (joinBuddy c st m k).pool p = st.pool m := by
    intro p hp
    rw [joinBuddy_pool_of_notMem (Set.disjoint_left.mp hdis hp)]
    exact hm.onePool p hp
  have hgood : Good c (joinBuddy c st m k) (F \ Set.Ico (buddy m k) (buddy m k + 2 ^ k)) := by
    have hrem : Good c (vmFreelistRem c st ((segOf c m).freeQueues (st.pool (buddy m k)))
        (buddy m k) k) (F \ Set.Ico (buddy m k) (buddy m k + 2 ^ k)) :=
      h.rem hb hm.lt (by rw [hseg])
    exact hrem.ensurePool _ Set.disjoint_sdiff_right
  refine ⟨hgood, hk, floorTo_dvd m (k + 1), hinSeg, ?_, ?_⟩
  · rw [Ico_floorTo hm.dvd, Set.disjoint_union_left]
    exact ⟨hm.disjoint.mono_right Set.sdiff_subset, Set.disjoint_sdiff_right⟩
  -- Every page of the joined block has the pool the block had.
  have hall : ∀ p ∈ Set.Ico (floorTo m (k + 1)) (floorTo m (k + 1) + 2 ^ (k + 1)),
      (joinBuddy c st m k).pool p = st.pool m := by
    intro p hp
    rw [Ico_floorTo hm.dvd] at hp
    rcases hp with hp | hp
    · exact hpool p hp
    · exact ensurePool_of_mem hone hp
  intro p hp
  rw [hall p hp, hall _ ⟨le_rfl, Nat.lt_add_of_pos_right (Nat.two_pow_pos _)⟩]

/-- What the loop leaves behind: the same pages, in a block that cannot be joined. -/
structure Joined (c : Conf) (st st' : Pages) (F : Set Nat) (m k m' k' : Nat) (F' : Set Nat) : Prop where
  good : Good c st' F'
  loose : Loose c st' F' m' k'
  pages : F' ∪ Set.Ico m' (m' + 2 ^ k') = F ∪ Set.Ico m (m + 2 ^ k)
  seg : segOf c m' = segOf c m
  last : k' + 1 < c.nfreeorder → Same c m' (buddy m' k') → st'.order (buddy m' k') ≠ k'
  pool : ∀ p, p ∉ F ∪ Set.Ico m (m + 2 ^ k) → st'.pool p = st.pool p

theorem coalesce_spec : ∀ (gas : Nat) {st : Pages} {F : Set Nat} {m k : Nat}, Good c st F →
    Loose c st F m k → k + gas + 1 = c.nfreeorder → ∃ st' m' k' F',
      coalesce c (segOf c m) gas st m (toPhys m) k = (st', m', k') ∧
        Joined c st st' F m k m' k' F' := by
  intro gas
  induction gas with
  | zero =>
    intro st F m k h hm hgas
    exact ⟨st, m, k, F, rfl, h, hm, rfl, rfl, fun hlt => by omega, fun _ _ => rfl⟩
  | succ gas ih =>
    intro st F m k h hm hgas
    unfold coalesce
    simp only [toPhys_xor]
    -- The block stays as it is where the buddy is not in the segment or not a block.
    have hstop : (Same c m (buddy m k) → st.order (buddy m k) ≠ k) → Joined c st st F m k m k F :=
      fun hne => ⟨h, hm, rfl, rfl, fun _ => hne, fun _ _ => rfl⟩
    split
    case isTrue hout =>
      refine ⟨st, m, k, F, rfl, hstop ?_⟩
      rintro ⟨s, hs, hsm, hsb⟩
      rw [← segOf_eq hs hsm] at hsb
      have h₁ := hsb.1
      have h₂ := hsb.2
      omega
    case isFalse hin =>
    have hholds : (segOf c m).Holds (buddy m k) := ⟨by omega, by omega⟩
    rw [page_toPhys hm.holds.1 hholds.1]
    split
    case isTrue hne => exact ⟨st, m, k, F, rfl, hstop (fun _ => hne)⟩
    case isFalse hb =>
    rw [not_not] at hb
    rcases h.buddy_block hm hholds hb with ⟨hseg, hsub, hinSeg⟩
    have hk : k + 1 < c.nfreeorder := by omega
    rcases joinBuddy_spec h hm hk hholds hb with ⟨hgood, hloose⟩
    have hfloor := hinSeg.holds le_rfl
      (Nat.lt_add_of_pos_right (Nat.two_pow_pos (k + 1)))
    have hsegf : segOf c (floorTo m (k + 1)) = segOf c m := by
      have hle := floorTo_le m (k + 1)
      exact (hinSeg.segOf_eq hle (lt_floorTo m (k + 1))).symm
    rcases ih hgood hloose (by omega) with ⟨st', m', k', F', hrun, hjoin⟩
    refine ⟨st', m', k', F', ?_, hjoin.good, hjoin.loose, ?_, ?_, hjoin.last, ?_⟩
    · rw [truncTo_toPhys, floorTo_buddy_eq hm.dvd]
      rw [hsegf] at hfloor hrun
      rw [page_toPhys hm.holds.1 hfloor.2.2.1]
      exact hrun
    · rw [hjoin.pages, Ico_floorTo hm.dvd, Set.union_comm (Set.Ico m (m + 2 ^ k)),
        ← Set.union_assoc, Set.sdiff_union_of_subset hsub]
    · rw [hjoin.seg, hsegf]
    intro p hp
    have hpF : p ∉ F := fun hin => hp (Or.inl hin)
    have hpb : p ∉ Set.Ico (buddy m k) (buddy m k + 2 ^ k) := fun hin => hpF (hsub hin)
    rw [hjoin.pool p, joinBuddy_pool_of_notMem hpb]
    rw [Ico_floorTo hm.dvd]
    rintro (hin | hin | hin)
    · exact hpF hin.1
    · exact hp (Or.inr hin)
    · exact hpb hin

/-- A block is freed. -/
theorem vmPhysFreePages_good (h : Good c st F) (hm : Loose c st F m k) :
    Good c (vmPhysFreePages c st m k) (F ∪ Set.Ico m (m + 2 ^ k)) ∧
      ∀ p, p ∉ F ∪ Set.Ico m (m + 2 ^ k) → (vmPhysFreePages c st m k).pool p = st.pool p := by
  have hlt := hm.lt
  rcases coalesce_spec (c.nfreeorder - 1 - k) h hm (by omega) with ⟨st', m', k', F', hrun, hjoin⟩
  unfold vmPhysFreePages
  simp only [hrun]
  refine ⟨?_, hjoin.pool⟩
  rw [← hjoin.pages]
  exact hjoin.good.add hjoin.loose (by rw [hjoin.seg]) hjoin.last

/-- A run of pages that are not free. Those that lie in the same block of the
    largest order have the same pool. -/
structure LooseRun (c : Conf) (st : Pages) (F : Set Nat) (m n : Nat) : Prop where
  inSeg : InSeg c m n
  disjoint : Disjoint (Set.Ico m (m + n)) F
  pools : ∀ p ∈ Set.Ico m (m + n), ∀ q ∈ Set.Ico m (m + n),
    p / 2 ^ (c.nfreeorder - 1) = q / 2 ^ (c.nfreeorder - 1) → st.pool p = st.pool q

/-- A block at the start of the run can be freed. -/
theorem LooseRun.block (h : LooseRun c st F m n) (hk : k < c.nfreeorder) (hdvd : 2 ^ k ∣ m)
    (hn : 2 ^ k ≤ n) : Loose c st F m k := by
  have hsub : Set.Ico m (m + 2 ^ k) ⊆ Set.Ico m (m + n) :=
    Set.Ico_subset_Ico le_rfl (by omega)
  refine ⟨hk, hdvd, h.inSeg.sub le_rfl (by omega), h.disjoint.mono_left hsub, ?_⟩
  intro p hp
  refine h.pools p (hsub hp) m
    (hsub ⟨Nat.le_refl m, Nat.lt_add_of_pos_right (Nat.two_pow_pos k)⟩) ?_
  -- A block that starts in a largest block also ends in it.
  have hlt := lt_floorTo m (c.nfreeorder - 1)
  have hend := block_sub hdvd (floorTo_dvd m (c.nfreeorder - 1)) (by omega) hlt
  have hle := floorTo_le m (c.nfreeorder - 1)
  have heq := floorTo_eq (floorTo_dvd m (c.nfreeorder - 1)) (le_trans hle hp.1)
    (lt_of_lt_of_le hp.2 hend)
  exact Nat.eq_of_mul_eq_mul_right (Nat.two_pow_pos _) heq

/-- The rest of the run after a block of it was freed. -/
theorem LooseRun.rest (h : LooseRun c st F m n) (hn : 2 ^ k ≤ n) {st' : Pages}
    (hpool : ∀ p, p ∉ F ∪ Set.Ico m (m + 2 ^ k) → st'.pool p = st.pool p) :
    LooseRun c st' (F ∪ Set.Ico m (m + 2 ^ k)) (m + 2 ^ k) (n - 2 ^ k) := by
  have hend : m + 2 ^ k + (n - 2 ^ k) = m + n := by omega
  have hsub : Set.Ico (m + 2 ^ k) (m + n) ⊆ Set.Ico m (m + n) :=
    Set.Ico_subset_Ico (Nat.le_add_right m _) le_rfl
  have hdis : Disjoint (Set.Ico (m + 2 ^ k) (m + n)) (F ∪ Set.Ico m (m + 2 ^ k)) := by
    rw [Set.disjoint_union_right]
    refine ⟨h.disjoint.mono_left hsub, Set.disjoint_left.mpr (fun p hp hp' => ?_)⟩
    have h₁ := hp.1
    have h₂ := hp'.2
    omega
  refine ⟨h.inSeg.sub (Nat.le_add_right m _) (le_of_eq hend), by rw [hend]; exact hdis, ?_⟩
  rw [hend]
  intro p hp q hq hpq
  rw [hpool p (Set.disjoint_left.mp hdis hp), hpool q (Set.disjoint_left.mp hdis hq)]
  exact h.pools p (hsub hp) q (hsub hq) hpq

theorem LooseRun.pages (hn : 2 ^ k ≤ n) :
    F ∪ Set.Ico m (m + 2 ^ k) ∪ Set.Ico (m + 2 ^ k) (m + 2 ^ k + (n - 2 ^ k)) =
      F ∪ Set.Ico m (m + n) := by
  have hend : m + 2 ^ k + (n - 2 ^ k) = m + n := by omega
  rw [hend, Set.union_assoc, Set.Ico_union_Ico_eq_Ico (Nat.le_add_right m _)
    (Nat.add_le_add_left hn m)]

theorem LooseRun.first (hn : 2 ^ k ≤ n) : F ∪ Set.Ico m (m + 2 ^ k) ⊆ F ∪ Set.Ico m (m + n) :=
  Set.union_subset_union_right F
    (Set.Ico_subset_Ico le_rfl (Nat.add_le_add_left hn m))

theorem dvd_of_testBit {x i : Nat} (h : ∀ j < i, x.testBit j = false) : 2 ^ i ∣ x := by
  refine Nat.dvd_of_mod_eq_zero (Nat.eq_of_testBit_eq (fun j => ?_))
  rw [Nat.testBit_mod_two_pow, Nat.zero_testBit]
  by_cases hj : j < i
  · rw [h j hj, Bool.and_false]
  · rw [decide_eq_false hj, Bool.false_and]

/-- The order chosen is one for which the page is aligned. -/
theorem startOrder_spec (c : Conf) (m : Nat) : startOrder c m < c.nfreeorder ∧
    2 ^ startOrder c m ∣ m := by
  have hpos := c.order_pos
  have hle := c.order_le
  have hm : toPhys m >>> pageShift = m := Nat.shiftLeft_shiftRight m pageShift
  unfold startOrder ffsl
  rw [hm]
  refine ⟨by omega, ?_⟩
  rcases hfind : (List.range 64).find? (fun i => m.testBit i) with _ | i
  · -- No bit is set: the largest order.
    rw [List.find?_range_eq_none] at hfind
    refine Nat.dvd_trans (Nat.pow_dvd_pow 2 ?_) (dvd_of_testBit (x := m) (i := 64) (fun j hj => ?_))
    · omega
    · have := hfind j hj
      rwa [Bool.not_eq_true'] at this
  rw [List.find?_range_eq_some] at hfind
  rcases hfind with ⟨_, hi, hbelow⟩
  rw [List.mem_range] at hi
  refine Nat.dvd_trans (Nat.pow_dvd_pow 2 ?_) (dvd_of_testBit (x := m) (i := i) (fun j hj => ?_))
  · simp only [Option.elim_some]
    omega
  · have := hbelow j hj
    rwa [Bool.not_eq_true'] at this

/-- The first loop leaves fewer pages than a block at their start would have. -/
theorem freeContigUp_spec : ∀ (gas : Nat) {st : Pages} {F : Set Nat} {m n : Nat}, Good c st F →
    LooseRun c st F m n → n ≤ gas → ∃ st' m' n' F',
      freeContigUp c gas st m n = (st', m', n') ∧ Good c st' F' ∧ LooseRun c st' F' m' n' ∧
        F' ∪ Set.Ico m' (m' + n') = F ∪ Set.Ico m (m + n) ∧
        (∀ p, p ∉ F ∪ Set.Ico m (m + n) → st'.pool p = st.pool p) ∧
        ∃ j < c.nfreeorder, n' < 2 ^ j ∧ 2 ^ j ∣ m' := by
  intro gas
  induction gas with
  | zero =>
    intro st F m n h hrun hgas
    refine ⟨st, m, n, F, rfl, h, hrun, rfl, fun _ _ => rfl, 0, c.order_pos, ?_, Nat.one_dvd m⟩
    omega
  | succ gas ih =>
    intro st F m n h hrun hgas
    rcases startOrder_spec c m with ⟨hlt, hdvd⟩
    unfold freeContigUp
    simp only [one_shiftLeft]
    split
    case isTrue hfew =>
      exact ⟨st, m, n, F, rfl, h, hrun, rfl, fun _ _ => rfl, _, hlt, hfew, hdvd⟩
    case isFalse hmany =>
    rw [Nat.not_lt] at hmany
    rcases vmPhysFreePages_good h (hrun.block hlt hdvd hmany) with ⟨hgood, hpool⟩
    rcases ih hgood (hrun.rest hmany hpool) (by omega) with
      ⟨st', m', n', F', hloop, hgood', hrun', hpages, hpool', hfew⟩
    rw [LooseRun.pages hmany] at hpages hpool'
    refine ⟨st', m', n', F', hloop, hgood', hrun', hpages, fun p hp => ?_, hfew⟩
    rw [hpool' p hp, hpool p (fun hin => hp (LooseRun.first hmany hin))]

/-- The second loop frees what is left. -/
theorem freeContigDown_good : ∀ (gas : Nat) {st : Pages} {F : Set Nat} {m n j : Nat}, Good c st F →
    LooseRun c st F m n → n ≤ gas → j < c.nfreeorder → n < 2 ^ j → 2 ^ j ∣ m →
      Good c (freeContigDown c gas st m n) (F ∪ Set.Ico m (m + n)) ∧
        ∀ p, p ∉ F ∪ Set.Ico m (m + n) → (freeContigDown c gas st m n).pool p = st.pool p := by
  intro gas
  induction gas with
  | zero =>
    intro st F m n j h hrun hgas hj hn hdvd
    have hzero : n = 0 := by omega
    rw [hzero, Nat.add_zero, Set.Ico_self, Set.union_empty]
    exact ⟨h, fun _ _ => rfl⟩
  | succ gas ih =>
    intro st F m n j h hrun hgas hj hn hdvd
    unfold freeContigDown
    simp only [one_shiftLeft]
    split
    case isTrue hzero =>
      rw [hzero, Nat.add_zero, Set.Ico_self, Set.union_empty]
      exact ⟨h, fun _ _ => rfl⟩
    case isFalse hsome =>
    have hself := Nat.log2_self_le hsome
    have hnext := Nat.lt_log2_self (n := n)
    have hlog : n.log2 < j := (Nat.log2_lt hsome).mpr hn
    have hdvd' : 2 ^ n.log2 ∣ m := Nat.dvd_trans (Nat.pow_dvd_pow 2 (le_of_lt hlog)) hdvd
    have hlt : n.log2 < c.nfreeorder := lt_trans hlog hj
    rcases vmPhysFreePages_good h (hrun.block hlt hdvd' hself) with ⟨hgood, hpool⟩
    have hrest := ih hgood (hrun.rest hself hpool) (by omega) hlt (by omega)
      (Nat.dvd_add hdvd' (Nat.dvd_refl _))
    rw [LooseRun.pages hself] at hrest
    refine ⟨hrest.1, fun p hp => ?_⟩
    rw [hrest.2 p hp, hpool p (fun hin => hp (LooseRun.first hself hin))]

/-- A run of pages is freed. -/
theorem vmPhysFreeContig_good (h : Good c st F) (hrun : LooseRun c st F m n) :
    Good c (vmPhysFreeContig c st m n) (F ∪ Set.Ico m (m + n)) ∧
      ∀ p, p ∉ F ∪ Set.Ico m (m + n) → (vmPhysFreeContig c st m n).pool p = st.pool p := by
  rcases freeContigUp_spec n h hrun le_rfl with
    ⟨st', m', n', F', hloop, hgood, hrun', hpages, hpool, j, hj, hfew, hdvd⟩
  have hdown := freeContigDown_good n' hgood hrun' le_rfl hj hfew hdvd
  unfold vmPhysFreeContig
  rw [hloop]
  rw [hpages] at hdown
  refine ⟨hdown.1, fun p hp => ?_⟩
  rw [hdown.2 p hp, hpool p hp]

end FreeBSDKern.Phys
