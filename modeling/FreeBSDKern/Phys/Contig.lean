import FreeBSDKern.Phys.Alloc

/-!
# Taking Runs of Pages

`vm_phys_alloc_seg_contig` takes a run of any length. A run that fits into a block
is cut out of one. A longer run is made of several blocks of the largest order side
by side, and these may be of different pools, of which only the first is changed.
What is left over at the end of the last block goes back with the pool that block
had, so no block of two pools is made.

## Main definitions

* `RunTaken`: What happens to the pages of a run.

## Theorems

* `fitOrder_le`, `fitOrder_lt`: The order fits the number of pages.
* `findRun_spec`: The blocks of the run that is found are free.
* `removeRun_good`: They leave their queues.
* `vmPhysAllocContig_taken`: The pages of the run were free.
-/

namespace FreeBSDKern.Phys

open Lib

variable {c : Conf} {st : Pages} {F : Set Nat} {m k n : Nat} {seg : Seg}

section fitOrder

theorem fitOrder_le (h : fitOrder n < 31) : n ≤ 2 ^ fitOrder n := by
  unfold fitOrder at h ⊢
  rcases hfind : (List.range 31).find? (fun order => n ≤ 1 <<< order) with _ | order
  · rw [hfind, Option.getD_none] at h
    exact absurd h (lt_irrefl 31)
  have hle := List.find?_some hfind
  rw [decide_eq_true_eq, one_shiftLeft] at hle
  rwa [Option.getD_some]

/-- No smaller order fits. -/
theorem fitOrder_lt (hk : k < fitOrder n) (hk' : k < 31) : 2 ^ k < n := by
  unfold fitOrder at hk
  rw [← not_le, ← one_shiftLeft]
  intro hle
  rcases hfind : (List.range 31).find? (fun order => n ≤ 1 <<< order) with _ | order
  · rw [List.find?_range_eq_none] at hfind
    have := hfind k hk'
    rw [decide_eq_true hle] at this
    cases this
  rw [hfind, Option.getD_some] at hk
  rw [List.find?_range_eq_some] at hfind
  have := hfind.2.2 k hk
  rw [decide_eq_true hle] at this
  cases this

end fitOrder

section roundup

/-- The number of blocks that hold a number of pages. -/
theorem roundup2_shiftRight (n k : Nat) :
    roundup2 n (1 <<< k) >>> k = (n + (2 ^ k - 1)) / 2 ^ k := by
  rw [roundup2, one_shiftLeft, Nat.shiftRight_eq_div_pow, Nat.mul_div_cancel _ (Nat.two_pow_pos k)]

theorem roundup2_eq (n k : Nat) : roundup2 n (1 <<< k) = (n + (2 ^ k - 1)) / 2 ^ k * 2 ^ k := by
  rw [roundup2, one_shiftLeft]

theorem le_roundup (n k : Nat) : n ≤ (n + (2 ^ k - 1)) / 2 ^ k * 2 ^ k := by
  have hpos := Nat.two_pow_pos k
  have := Nat.div_add_mod (n + (2 ^ k - 1)) (2 ^ k)
  rw [Nat.mul_comm]
  omega

theorem roundup_lt (n k : Nat) : (n + (2 ^ k - 1)) / 2 ^ k * 2 ^ k < n + 2 ^ k := by
  have hpos := Nat.two_pow_pos k
  have := Nat.div_mul_le_self (n + (2 ^ k - 1)) (2 ^ k)
  omega

/-- Pages that fit into a block need one block. -/
theorem blocks_one (hn : 0 < n) (hle : n ≤ 2 ^ k) : (n + (2 ^ k - 1)) / 2 ^ k = 1 := by
  have hpos := Nat.two_pow_pos k
  exact Nat.div_eq_of_lt_le (by omega) (by omega)

end roundup

section search

theorem toPhys_add (a b : Nat) : toPhys (a + b) = toPhys a + toPhys b := by
  rw [toPhys_eq, toPhys_eq, toPhys_eq, Nat.add_mul]

theorem toPhys_two_pow (k : Nat) : 1 <<< (pageShift + k) = toPhys (2 ^ k) := by
  rw [one_shiftLeft, toPhys_eq, Nat.pow_add, Nat.mul_comm]

/-- All the blocks before the address at which the search ends are free, the first
    one aside. -/
theorem blocksEnd_spec (hseg : seg ∈ c.segs) (st : Pages) (paEnd : Nat) : ∀ (gas m : Nat), ∃ j,
    blocksEnd c seg st paEnd gas (toPhys m) = toPhys (m + j * 2 ^ (c.nfreeorder - 1)) ∧
      ∀ i, 0 < i → i < j → seg.Holds (m + i * 2 ^ (c.nfreeorder - 1)) ∧
        st.order (m + i * 2 ^ (c.nfreeorder - 1)) = c.nfreeorder - 1 := by
  intro gas
  induction gas with
  | zero =>
    intro m
    refine ⟨0, by rw [Nat.zero_mul]; rfl, fun i _ hi => absurd hi (Nat.not_lt_zero i)⟩
  | succ gas ih =>
    intro m
    have hnone : ∀ i, 0 < i → i < 1 → seg.Holds (m + i * 2 ^ (c.nfreeorder - 1)) ∧
        st.order (m + i * 2 ^ (c.nfreeorder - 1)) = c.nfreeorder - 1 := by
      intro i h₀ h₁
      omega
    unfold blocksEnd
    dsimp only
    rw [toPhys_two_pow, ← toPhys_add]
    split
    case isTrue => exact ⟨1, by rw [Nat.one_mul], hnone⟩
    case isFalse hin =>
    have hholds : seg.Holds (m + 2 ^ (c.nfreeorder - 1)) := ⟨by omega, by omega⟩
    rw [page_toPhys hseg hholds.1]
    split
    case isTrue => exact ⟨1, by rw [Nat.one_mul], hnone⟩
    case isFalse hord =>
    rw [not_not] at hord
    rcases ih (m + 2 ^ (c.nfreeorder - 1)) with ⟨j, hend, hfree⟩
    refine ⟨j + 1, ?_, fun i h₀ hi => ?_⟩
    · rw [hend, Nat.add_mul, Nat.one_mul, Nat.add_comm (j * _), Nat.add_assoc]
    -- The block just passed, or one the rest of the search passed.
    by_cases hone : i = 1
    · rw [hone, Nat.one_mul]
      exact ⟨hholds, hord⟩
    have hshift : m + i * 2 ^ (c.nfreeorder - 1) =
        m + 2 ^ (c.nfreeorder - 1) + (i - 1) * 2 ^ (c.nfreeorder - 1) := by
      have : i * 2 ^ (c.nfreeorder - 1) = (1 + (i - 1)) * 2 ^ (c.nfreeorder - 1) := by
        rw [Nat.add_sub_cancel' h₀]
      rw [this, Nat.add_mul, Nat.one_mul, Nat.add_assoc]
    rw [hshift]
    exact hfree (i - 1) (by omega) (by omega)

variable {r : Request} {oind : Nat} {st' : Pages}

/-- What the search of a run finds: a block of its queue, which is large enough or has
    enough largest blocks behind it. -/
theorem findRun_spec (h : Good c st F) (hseg : seg ∈ c.segs) (hsize : toPhys r.npages ≤ 2 ^ 63)
    (hfind : findRun c seg st r = some (m, oind)) :
    oind < c.nfreeorder ∧ min (fitOrder r.npages) (c.nfreeorder - 1) ≤ oind ∧
      st.order m = oind ∧ seg.freeQueues (st.pool m) = (segOf c m).freeQueues (st.pool m) ∧
      (c.nfreeorder ≤ fitOrder r.npages → ∀ i, 0 < i → i * 2 ^ oind < r.npages →
        seg.Holds (m + i * 2 ^ oind) ∧ st.order (m + i * 2 ^ oind) = oind) := by
  unfold findRun at hfind
  dsimp only at hfind
  rcases List.exists_of_findSome?_eq_some hfind with ⟨oind', hrange, hpools⟩
  rcases List.exists_of_findSome?_eq_some hpools with ⟨pind, _, hqueue⟩
  rw [Option.map_eq_some_iff] at hqueue
  rcases hqueue with ⟨m', hm', heq⟩
  rw [Prod.mk.injEq] at heq
  rcases heq with ⟨rfl, rfl⟩
  rcases h.of_queue (List.mem_of_find?_eq_some hm') with ⟨hord, hlt, hfl⟩
  rw [List.mem_range'_1] at hrange
  have hpind : pind = st.pool m' := by
    rw [Seg.freeQueues, Seg.freeQueues, Freelist.mk.injEq] at hfl
    exact hfl.2.2
  refine ⟨hlt, hrange.1, hord, by rw [← hpind]; rwa [← hpind] at hfl, fun hlong i h₀ hi => ?_⟩
  have hoind : oind' = c.nfreeorder - 1 := by omega
  have hfits := List.find?_some hm'
  unfold runFits at hfits
  simp only [decide_eq_true_eq] at hfits
  have hend := hfits.1.resolve_left (Nat.not_lt.mpr hlong)
  -- The addresses do not wrap.
  have hmlt : toPhys m' < 2 ^ 63 := by
    have hholds := (h.ok.inside m' (by rw [hord]; exact hlt)).holds le_rfl
      (Nat.lt_add_of_pos_right (Nat.two_pow_pos _))
    exact lt_of_lt_of_le hholds.2.1.2 (c.seg_pages _ hholds.1).2.2
  have hwrap : (toPhys m' + ptoa r.npages) % 2 ^ 64 = toPhys (m' + r.npages) := by
    have hpt : ptoa r.npages = toPhys r.npages := Nat.mod_eq_of_lt (by
      show toPhys r.npages < 2 ^ 64
      omega)
    rw [hpt, ← toPhys_add, Nat.mod_eq_of_lt]
    rw [toPhys_add]
    omega
  rcases blocksEnd_spec hseg st ((toPhys m' + ptoa r.npages) % 2 ^ 64) r.npages m' with
    ⟨j, hj, hfree⟩
  rw [hj, hwrap, toPhys_le, Nat.add_le_add_iff_left] at hend
  rw [hoind] at hi ⊢
  refine hfree i h₀ (Nat.lt_of_mul_lt_mul_right (a := 2 ^ (c.nfreeorder - 1)) ?_)
  exact lt_of_lt_of_le hi hend

end search

section removeRun

theorem diff_diff_next (b n : Nat) :
    (F \ Set.Ico m (m + b)) \ Set.Ico (m + b) (m + b + n * b) = F \ Set.Ico m (m + (n + 1) * b) := by
  have hend : m + b + n * b = m + (n + 1) * b := by
    rw [Nat.add_mul, Nat.one_mul, Nat.add_assoc, Nat.add_comm b]
  have hle : m + b ≤ m + (n + 1) * b := by
    rw [← hend]
    exact Nat.le_add_right _ _
  rw [Set.sdiff_sdiff, hend, Set.Ico_union_Ico_eq_Ico (Nat.le_add_right m b) hle]

/-- The blocks of the run leave their queues. -/
theorem removeRun_good (hoind : oind < c.nfreeorder) : ∀ (n : Nat) {st : Pages}
    {F : Set Nat} {m : Nat}, Good c st F → (∀ i < n, st.order (m + i * 2 ^ oind) = oind ∧
      seg.freeQueues (st.pool (m + i * 2 ^ oind)) =
        (segOf c (m + i * 2 ^ oind)).freeQueues (st.pool (m + i * 2 ^ oind))) →
      Set.Ico m (m + n * 2 ^ oind) ⊆ F ∧
        Good c (removeRun c seg oind n st m) (F \ Set.Ico m (m + n * 2 ^ oind)) ∧
        (removeRun c seg oind n st m).pool = st.pool := by
  intro n
  induction n with
  | zero =>
    intro st F m h _
    rw [Nat.zero_mul, Nat.add_zero, Set.Ico_self, Set.sdiff_empty]
    exact ⟨Set.empty_subset F, h, rfl⟩
  | succ n ih =>
    intro st F m h hblocks
    have hpos := Nat.two_pow_pos oind
    have hfirst := hblocks 0 (Nat.succ_pos n)
    rw [Nat.zero_mul, Nat.add_zero] at hfirst
    have hrem := h.rem hfirst.1 hoind hfirst.2
    have hsub := h.block_sub (by rw [hfirst.1]; exact hoind)
    rw [hfirst.1] at hsub
    have hshift : ∀ i, m + 2 ^ oind + i * 2 ^ oind = m + (i + 1) * 2 ^ oind := by
      intro i
      rw [Nat.add_mul, Nat.one_mul, Nat.add_assoc, Nat.add_comm (2 ^ oind)]
    have hrest : ∀ i < n, (vmFreelistRem c st (seg.freeQueues (st.pool m)) m oind).order
          (m + 2 ^ oind + i * 2 ^ oind) = oind ∧
        seg.freeQueues (st.pool (m + 2 ^ oind + i * 2 ^ oind)) =
          (segOf c (m + 2 ^ oind + i * 2 ^ oind)).freeQueues
            (st.pool (m + 2 ^ oind + i * 2 ^ oind)) := by
      intro i hi
      have hnext := hblocks (i + 1) (by omega)
      rw [← hshift i] at hnext
      rw [rem_order, Function.update_of_ne (by omega)]
      exact hnext
    rcases ih hrem hrest with ⟨hsub', hgood, hpool⟩
    unfold removeRun
    rw [hfirst.1, one_shiftLeft, ← diff_diff_next]
    refine ⟨?_, hgood, hpool⟩
    rw [← hshift n, ← Set.Ico_union_Ico_eq_Ico (Nat.le_add_right m (2 ^ oind)) (Nat.le_add_right _ _)]
    exact Set.union_subset hsub (Set.Subset.trans hsub' Set.sdiff_subset)

end removeRun

section allocContig

theorem LooseRun.of_block {a b : Nat} (h : Loose c st F m k) (ha : m ≤ a)
    (hb : a + b ≤ m + 2 ^ k) : LooseRun c st F a b := by
  have hsub : Set.Ico a (a + b) ⊆ Set.Ico m (m + 2 ^ k) := Set.Ico_subset_Ico ha hb
  refine ⟨h.inSeg.sub ha hb, h.disjoint.mono_left hsub, fun p hp q hq _ => ?_⟩
  rw [h.onePool p (hsub hp), h.onePool q (hsub hq)]

/-- A run was taken. The pages of its first block get the default pool, and the other
    pages keep theirs. -/
structure RunTaken (c : Conf) (st st' : Pages) (F : Set Nat) (m n : Nat) : Prop where
  taken : Taken c st' F m n
  pools : ∀ p ∈ Set.Ico m (m + n), st'.pool p =
    if p < m + 2 ^ (c.nfreeorder - 1) then freepoolDefault else st.pool p

-- The pages after the run are given back. Those of the run keep their pool.
theorem freeExcess_taken {e : Nat} (hne : n ≤ e) (hsub : Set.Ico m (m + e) ⊆ F)
    (h : Good c st (F \ Set.Ico m (m + e)))
    (hrun : LooseRun c st (F \ Set.Ico m (m + e)) (m + n) (e - n)) :
    let st' := if n < e then vmPhysFreeContig c st (m + n) (e - n) else st
    Taken c st' F m n ∧ ∀ p ∈ Set.Ico m (m + n), st'.pool p = st.pool p := by
  have hsub' : Set.Ico m (m + n) ⊆ Set.Ico m (m + e) :=
    Set.Ico_subset_Ico le_rfl (Nat.add_le_add_left hne m)
  dsimp only
  split
  case isTrue hlt =>
    rcases vmPhysFreeContig_good h hrun with ⟨hgood, hpool⟩
    rw [show m + n + (e - n) = m + e by omega, diff_union_upper hne hsub] at hgood hpool
    exact ⟨⟨Set.Subset.trans hsub' hsub, hgood⟩, fun p hp => hpool p (fun hin => hin.2 hp)⟩
  case isFalse hge =>
    have heq : n = e := by omega
    subst heq
    exact ⟨⟨hsub, h⟩, fun _ _ => rfl⟩

/-- A run that fits into the block it was found in. -/
theorem allocSegContig_short {order : Nat} (h : Good c st F) (hoind : oind < c.nfreeorder)
    (hm : st.order m = oind) (hfl : seg.freeQueues (st.pool m) = (segOf c m).freeQueues (st.pool m))
    (horder : order ≤ oind) (hn : n ≤ 2 ^ order) :
    let st₁ := ensurePool freepoolDefault (removeRun c seg oind 1 st m) m oind
    let st₂ := vmPhysSplitPages (seg.freeQueues (st₁.pool m)) m order oind st₁
    RunTaken c st (if n < 2 ^ order then vmPhysFreeContig c st₂ (m + n) (2 ^ order - n) else st₂)
      F m n := by
  have hsub := h.block_sub (by rw [hm]; exact hoind)
  rw [hm] at hsub
  have hrem := h.rem hm hoind hfl
  have hloose := h.rem_loose (seg.freeQueues (st.pool m)) hm hoind
  have hone : removeRun c seg oind 1 st m = vmFreelistRem c st (seg.freeQueues (st.pool m)) m oind := by
    unfold removeRun
    rw [hm]
    rfl
  rw [hone]
  have hself : m ∈ Set.Ico m (m + 2 ^ oind) :=
    Set.left_mem_Ico.mpr (Nat.lt_add_of_pos_right (Nat.two_pow_pos oind))
  have hgood₁ := hrem.ensurePool freepoolDefault hloose.disjoint
  have hloose₁ : Loose c (ensurePool freepoolDefault
      (vmFreelistRem c st (seg.freeQueues (st.pool m)) m oind) m oind)
      (F \ Set.Ico m (m + 2 ^ oind)) m oind :=
    ⟨hloose.lt, hloose.dvd, hloose.inSeg, hloose.disjoint, fun p hp => by
      rw [ensurePool_of_mem hloose.onePool hp, ensurePool_of_mem hloose.onePool hself]⟩
  intro st₁ st₂
  have hseg : ∀ pool, seg.freeQueues pool = (segOf c m).freeQueues pool := by
    intro pool
    rw [Seg.freeQueues, Seg.freeQueues, Freelist.mk.injEq] at hfl ⊢
    exact ⟨hfl.1, hfl.2.1, rfl⟩
  rcases vmPhysSplitPages_good _ oind hgood₁ hloose₁ (hseg _) horder with ⟨hgood₂, hpool₂⟩
  have hmono : 2 ^ order ≤ 2 ^ oind := Nat.pow_le_pow_right (by omega) horder
  rw [diff_union_upper hmono hsub] at hgood₂
  have hlow : Set.Ico m (m + 2 ^ order) ⊆ Set.Ico m (m + 2 ^ oind) :=
    Set.Ico_subset_Ico le_rfl (Nat.add_le_add_left hmono m)
  have hloose₂ : Loose c st₂ (F \ Set.Ico m (m + 2 ^ order)) m order := by
    refine ⟨lt_of_le_of_lt horder hoind, Nat.dvd_trans (Nat.pow_dvd_pow 2 horder) hloose.dvd,
      hloose.inSeg.sub le_rfl (Nat.add_le_add_left hmono m), Set.disjoint_sdiff_right,
      fun p hp => ?_⟩
    show (vmPhysSplitPages _ _ _ _ _).pool p = (vmPhysSplitPages _ _ _ _ _).pool m
    rw [hpool₂]
    exact hloose₁.onePool p (hlow hp)
  rcases freeExcess_taken hn (Set.Subset.trans hlow hsub) hgood₂
    (.of_block hloose₂ (Nat.le_add_right m n) (by omega)) with ⟨htaken, hpools⟩
  refine ⟨htaken, fun p hp => ?_⟩
  have hlargest : 2 ^ oind ≤ 2 ^ (c.nfreeorder - 1) := Nat.pow_le_pow_right (by omega) (by omega)
  have hin : p ∈ Set.Ico m (m + 2 ^ oind) := ⟨hp.1, by have := hp.2; omega⟩
  rw [hpools p hp, if_pos (by have := hin.2; omega)]
  show (vmPhysSplitPages _ _ _ _ _).pool p = freepoolDefault
  rw [hpool₂]
  exact ensurePool_of_mem hloose.onePool hin

/-- A run of several blocks of the largest order. -/
theorem allocSegContig_long (h : Good c st F) (hoind : oind + 1 = c.nfreeorder)
    (hlong : 2 ^ oind < n)
    (hblocks : ∀ i < (n + (2 ^ oind - 1)) / 2 ^ oind, st.order (m + i * 2 ^ oind) = oind ∧
      seg.freeQueues (st.pool (m + i * 2 ^ oind)) =
        (segOf c (m + i * 2 ^ oind)).freeQueues (st.pool (m + i * 2 ^ oind))) :
    let e := (n + (2 ^ oind - 1)) / 2 ^ oind * 2 ^ oind
    let st₁ := ensurePool freepoolDefault
      (removeRun c seg oind ((n + (2 ^ oind - 1)) / 2 ^ oind) st m) m oind
    RunTaken c st (if n < e then vmPhysFreeContig c st₁ (m + n) (e - n) else st₁) F m n := by
  intro e st₁
  have hlt' : oind < c.nfreeorder := by omega
  have hle := le_roundup n oind
  have hlt := roundup_lt n oind
  rcases removeRun_good hlt' _ h hblocks with ⟨hsub, hgood, hpool⟩
  have hcnt : 1 < (n + (2 ^ oind - 1)) / 2 ^ oind := by
    by_contra hfew
    have := Nat.mul_le_mul_right (2 ^ oind) (not_lt.mp hfew)
    omega
  have hfirst : Disjoint (Set.Ico m (m + 2 ^ oind)) (F \ Set.Ico m (m + e)) := by
    refine Set.disjoint_sdiff_right.mono_left (Set.Ico_subset_Ico le_rfl ?_)
    exact Nat.add_le_add_left (le_trans (le_of_lt hlong) hle) m
  have hgood₁ := hgood.ensurePool freepoolDefault hfirst
  have hhead := hblocks 0 (lt_trans Nat.zero_lt_one hcnt)
  rw [Nat.zero_mul, Nat.add_zero] at hhead
  have hone : OnePool (removeRun c seg oind ((n + (2 ^ oind - 1)) / 2 ^ oind) st m) m oind := by
    have hpools := h.ok.pools m (by rw [hhead.1]; exact hlt')
    rw [hhead.1] at hpools
    intro p hp
    rw [hpool, hpools p hp]
  suffices hrun : LooseRun c st₁ (F \ Set.Ico m (m + e)) (m + n) (e - n) by
    rcases freeExcess_taken hle hsub hgood₁ hrun with ⟨htaken, hpools⟩
    refine ⟨htaken, fun p hp => ?_⟩
    rw [hpools p hp, ← hoind, Nat.add_sub_cancel]
    split
    case isTrue hin => exact ensurePool_of_mem hone ⟨hp.1, hin⟩
    case isFalse hout => rw [ensurePool_of_notMem (fun hin => hout hin.2), hpool]
  -- The pages left over are in the last block, which is not the first one.
  rcases Nat.exists_eq_add_of_lt hcnt with ⟨q, hq⟩
  have hlast := hblocks (1 + q) (by omega)
  have hlastlt : st.order (m + (1 + q) * 2 ^ oind) < c.nfreeorder := by rw [hlast.1]; exact hlt'
  have he : e = (1 + q) * 2 ^ oind + 2 ^ oind := by
    show (n + (2 ^ oind - 1)) / 2 ^ oind * 2 ^ oind = _
    rw [hq, Nat.add_mul _ 1, Nat.one_mul]
  have hin := h.ok.inside _ hlastlt
  have hpools := h.ok.pools _ hlastlt
  rw [hlast.1] at hin hpools
  have hsame : ∀ p ∈ Set.Ico (m + n) (m + e), st₁.pool p = st.pool (m + (1 + q) * 2 ^ oind) := by
    intro p hp
    have h₁ := hp.1
    have h₂ := hp.2
    rw [ensurePool_of_notMem (fun hin => by have := hin.2; omega), hpool]
    exact hpools p ⟨by omega, by omega⟩
  have hend : m + n + (e - n) = m + e := by omega
  refine ⟨hin.sub (by omega) (by omega), ?_, ?_⟩
  · rw [hend]
    exact Set.disjoint_sdiff_right.mono_left (Set.Ico_subset_Ico (Nat.le_add_right m n) le_rfl)
  rw [hend]
  intro p hp q' hq' _
  rw [hsame p hp, hsame q' hq']

/-- A run is taken from the free lists of a segment. -/
theorem vmPhysAllocSegContig_taken (h : Good c st F) (hseg : seg ∈ c.segs) (hn : 0 < r.npages)
    (hsize : toPhys r.npages ≤ 2 ^ 63) (hres : vmPhysAllocSegContig c seg st r = some (m, st')) :
    RunTaken c st st' F m r.npages := by
  unfold vmPhysAllocSegContig at hres
  rcases hfind : findRun c seg st r with _ | ⟨mRet, oind⟩
  · rw [hfind] at hres
    cases hres
  rw [hfind] at hres
  dsimp only at hres
  rw [Option.some.injEq, Prod.mk.injEq] at hres
  rcases hres with ⟨rfl, rfl⟩
  rcases findRun_spec h hseg hsize hfind with ⟨hoind, hmin, hord, hfl, hmore⟩
  have hpos := c.order_pos
  have hle := c.order_le
  rw [roundup2_shiftRight, roundup2_eq]
  by_cases hlong : c.nfreeorder ≤ fitOrder r.npages
  · have hmany : 2 ^ oind < r.npages := fitOrder_lt (by omega) (by omega)
    have hblocks : ∀ i < (r.npages + (2 ^ oind - 1)) / 2 ^ oind,
        st.order (mRet + i * 2 ^ oind) = oind ∧ seg.freeQueues (st.pool (mRet + i * 2 ^ oind)) =
          (segOf c (mRet + i * 2 ^ oind)).freeQueues (st.pool (mRet + i * 2 ^ oind)) := by
      intro i hi
      by_cases hzero : i = 0
      · rw [hzero, Nat.zero_mul, Nat.add_zero]
        exact ⟨hord, hfl⟩
      have hlt : i * 2 ^ oind < r.npages := by
        have := (Nat.le_div_iff_mul_le (Nat.two_pow_pos oind)).mp hi
        rw [Nat.succ_mul] at this
        have := Nat.two_pow_pos oind
        omega
      rcases hmore hlong i (Nat.pos_of_ne_zero hzero) hlt with ⟨hholds, hord'⟩
      exact ⟨hord', by rw [segOf_eq hseg hholds]⟩
    have hmin' : min oind (fitOrder r.npages) = oind := by omega
    rw [hmin', vmPhysSplitPages_of_le _ _ (by omega)]
    exact allocSegContig_long h (by omega) hmany hblocks
  have hfit : r.npages ≤ 2 ^ fitOrder r.npages := fitOrder_le (by omega)
  have horder : fitOrder r.npages ≤ oind := by omega
  have hmono : 2 ^ fitOrder r.npages ≤ 2 ^ oind := Nat.pow_le_pow_right (by omega) horder
  have hmin' : min oind (fitOrder r.npages) = fitOrder r.npages := by omega
  rw [hmin', blocks_one hn (le_trans hfit hmono), blocks_one hn hfit, Nat.one_mul]
  exact allocSegContig_short h hoind hord hfl horder hfit

-- The segments are tried only where the whole run could lie.
theorem allocFromSegs_some {domain : Nat} {found : Nat × Pages} :
    ∀ segs : List Seg, allocFromSegs c domain st r segs = some found →
      ∃ seg ∈ segs, ptoa r.npages ≤ seg.stop ∧ vmPhysAllocSegContig c seg st r = some found := by
  intro segs
  induction segs with
  | nil => exact fun hres => nomatch hres
  | cons seg rest ih =>
    intro hres
    have hrest : allocFromSegs c domain st r rest = some found →
        ∃ s ∈ seg :: rest, ptoa r.npages ≤ s.stop ∧ vmPhysAllocSegContig c s st r = some found := by
      intro hres
      rcases ih hres with ⟨s, hs, hle, hfound⟩
      exact ⟨s, List.mem_cons_of_mem seg hs, hle, hfound⟩
    unfold allocFromSegs at hres
    by_cases hhigh : r.high ≤ seg.start
    · rw [if_pos hhigh] at hres
      cases hres
    rw [if_neg hhigh] at hres
    by_cases hskip : seg.stop ≤ r.low ∨ seg.domain ≠ domain
    · rw [if_pos hskip] at hres
      exact hrest hres
    rw [if_neg hskip] at hres
    dsimp only at hres
    by_cases hsmall : (if r.high < seg.stop then r.high else seg.stop) -
        (if r.low ≤ seg.start then seg.start else r.low) < ptoa r.npages
    · rw [if_pos hsmall] at hres
      exact hrest hres
    rw [if_neg hsmall] at hres
    have hclip : (if r.high < seg.stop then r.high else seg.stop) ≤ seg.stop := by
      split <;> omega
    rcases hfound : vmPhysAllocSegContig c seg st r with _ | found'
    · rw [hfound] at hres
      exact hrest hres
    · rw [hfound] at hres
      exact ⟨seg, List.mem_cons_self, by omega, hfound.trans hres⟩

theorem allocFromSegs_taken (h : Good c st F) (hn : 0 < r.npages)
    (hbytes : toPhys r.npages < 2 ^ 64) {domain : Nat}
    (hres : allocFromSegs c domain st r c.segs = some (m, st')) :
    RunTaken c st st' F m r.npages := by
  rcases allocFromSegs_some c.segs hres with ⟨seg, hseg, hle, hfound⟩
  have hpt : ptoa r.npages = toPhys r.npages := Nat.mod_eq_of_lt hbytes
  have hstop := (c.seg_pages seg hseg).2.2
  exact vmPhysAllocSegContig_taken h hseg hn (by omega) hfound

/-- A run of pages is taken. -/
theorem vmPhysAllocContig_taken (h : Good c st F) (hn : 0 < r.npages)
    (hbytes : toPhys r.npages < 2 ^ 64) {domains : List Nat}
    (hres : vmPhysAllocContig c st r domains = some (m, st')) : RunTaken c st st' F m r.npages := by
  unfold vmPhysAllocContig at hres
  by_cases hempty : r.high ≤ r.low
  · rw [if_pos hempty] at hres
    cases hres
  rw [if_neg hempty] at hres
  rcases List.exists_of_findSome?_eq_some hres with ⟨domain, _, hfound⟩
  exact allocFromSegs_taken h hn hbytes hfound

end allocContig

end FreeBSDKern.Phys
