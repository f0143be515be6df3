import FreeBSDKern.Swap.Node

/-!
# Allocating from the Block List

An allocation walks down the subtrees whose hint does not rule them out, and
takes the first run of blocks that a leaf holds. What a node stands for is
followed from the leaf up: the leaf loses the bits of the run, a node above it
loses the same blocks from its count. A failed search changes hints only, and
lowers one below the length that was asked for; where hints were right before,
the search has seen every leaf that could hold such a run.

## Main definitions

* `Within`: What an operation on a subtree leaves alone.
* `AllocResult`: What an allocation may come to.
* `AllocState`: What the loop over the subtrees relies on.

## Theorems

* `blstLeafAlloc_spec`: A leaf.
* `parent_of_child`: An operation on a subtree, seen from the node above.
* `allocLoop_spec`: The loop over the subtrees.
* `blstAlloc_spec`: The whole walk.
-/

namespace FreeBSDKern.Swap

open Function

/-- What an operation on a subtree leaves alone, and that it keeps the
    shape. -/
def Within (m m' : Mem) (d p n : Nat) : Prop :=
  (∀ i, ¬ (p ≤ i ∧ i ≤ p + skip d) → m' i = m i) ∧ Shape m' d p n

/-- The blocks that are left when a range is taken. -/
def without (F : Nat → Bool) (a count i : Nat) : Bool := F i && !inRange a count i

/-- What an allocation may come to: a run was found and taken, or nothing has
    changed and, where hints can be trusted, there is no run. -/
def AllocResult (H : Prop) (m' : Mem) (d p n blk count : Nat) (F : Nat → Bool) : Option Nat → Prop
  | none => NodeOk H m' d p n F ∧ (H → ¬ HasRun n F count)
  | some b => ∃ a, b = blk + a ∧ a + count ≤ n ∧ a % 32 + count ≤ 32 ∧
      (∀ i, a ≤ i → i < a + count → F i = true) ∧ NodeOk H m' d p n (without F a count)

theorem without_le (F : Nat → Bool) (a count i : Nat) (h : without F a count i = true) :
    F i = true := by
  rw [without, Bool.and_eq_true] at h
  exact h.1

variable {H : Prop} {m : Mem} {p n d count : Nat} {F : Nat → Bool}

/-- A bitmap with the bits of a range cleared. -/
theorem nodeOk_clear (h : NodeOk H m 0 p n F) (mask : BitVec 32) (a count : Nat)
    (hmask : ∀ i, i < 32 → mask.getLsbD i = inRange a count i) :
    NodeOk H (update m p { m p with bitmap := (m p).bitmap &&& ~~~mask }) 0 p n
      (without F a count) := by
  rw [NodeOk, update_self]
  refine ⟨fun i hi => ?_, h.2.mono (fun i _ hw => without_le F a count i hw)⟩
  simp only [BitVec.getLsbD_and, BitVec.getLsbD_not, h.1 i hi, hmask i hi, hi, decide_true,
    Bool.true_and, without, Bool.and_assoc]

theorem within_update (hn : n ≤ radix d) (h : Shape m d p n) (node : Blmeta)
    (hhint : 0 ≤ node.bighint) : Within m (update m p node) d p n := by
  refine ⟨fun i hi => update_of_ne (by omega) _ _, h.rehint hn ?_ (fun i hi hi' => ?_)⟩
  · rw [update_self]
    exact hhint
  · exact update_of_ne (by omega) _ _

/-- A run of set bits is a run of blocks that exist. -/
theorem leaf_run (h : NodeOk H m 0 p n F) (a count : Nat) (hpos : 0 < count) (hle : a + count ≤ 32)
    (hbits : ∀ i, a ≤ i → i < a + count → (m p).bitmap.getLsbD i = true) :
    a + count ≤ n ∧ a % 32 + count ≤ 32 ∧ ∀ i, a ≤ i → i < a + count → F i = true := by
  have hboth : ∀ i, a ≤ i → i < a + count → i < n ∧ F i = true := by
    intro i hi hlt
    have hb := hbits i hi hlt
    rw [h.1 i (by omega), Bool.and_eq_true, decide_eq_true_eq] at hb
    exact hb
  have hlast := (hboth (a + count - 1) (by omega) (by omega)).1
  refine ⟨by omega, ?_, fun i hi hlt => (hboth i hi hlt).2⟩
  rw [Nat.mod_eq_of_lt (by omega)]
  exact hle

theorem blstLeafAlloc_spec (H : Prop) (count : Nat) (hpos : 0 < count) (hle : count ≤ 32) (m : Mem)
    (p n blk : Nat) (F : Nat → Bool) (hn : n ≤ 32) (hs : Shape m 0 p n) (h : NodeOk H m 0 p n F) :
    Within m (blstLeafAlloc m p blk count).2 0 p n ∧
      AllocResult H (blstLeafAlloc m p blk count).2 0 p n blk count F
        (blstLeafAlloc m p blk count).1 := by
  have hn' : n ≤ radix 0 := hn
  -- A node with another hint reads the same.
  have hrehint : ∀ hint : Int, HintOk H hint n F →
      NodeOk H (update m p { m p with bighint := hint }) 0 p n F := by
    intro hint hok
    rw [NodeOk, update_self]
    exact ⟨h.1, hok⟩
  unfold blstLeafAlloc
  simp only
  by_cases hzero : (m p).bitmap = 0
  · rw [if_pos hzero]
    have hnone : ∀ c, 0 < c → ¬ HasRun n F c := by
      rintro c hc ⟨b, hb, hbn, hrun⟩
      have hbit := (eq_zero_iff_bits _).mp hzero b (by omega)
      rw [h.1 b (by omega), hrun b le_rfl (by omega),
        decide_eq_true (show b < n by omega)] at hbit
      cases hbit
    exact ⟨within_update hn' hs _ (Int.le_refl 0),
      hrehint 0 (fun _ c hc hrun => absurd hrun (hnone c hc)), fun _ => hnone count hpos⟩
  rw [if_neg hzero]
  by_cases hone : count = 1
  · rw [if_pos hone]
    have hbit := lowBitLoop_spec _ hzero
    generalize lowBitLoop 6 (m p).bitmap (BitVec.allOnes 32 >>> (bmapRadix / 2)) (bmapRadix / 2) 0 = r
      at hbit
    have hr : r < 32 := by
      by_contra hc
      rw [BitVec.getLsbD_of_ge _ _ (by omega)] at hbit
      cases hbit
    rcases leaf_run h r 1 Nat.one_pos (by omega) (fun i hi hlt => by
      rwa [show i = r by omega]) with ⟨hrn, hr32, hF⟩
    refine ⟨within_update hn' hs _ hs, r, rfl, by omega, by omega, ?_, ?_⟩
    · rw [hone]
      exact hF
    rw [hone]
    refine nodeOk_clear h _ r 1 (fun i hi => ?_)
    rw [BitVec.getLsbD_shiftLeft, inRange]
    have hbit1 : ∀ j, (1 : BitVec 32).getLsbD j = decide (j = 0) := by
      intro j
      rw [BitVec.ofNat_eq_ofNat, BitVec.getLsbD_one]
      simp
    rw [hbit1, Bool.eq_iff_iff]
    simp only [Bool.and_eq_true, Bool.not_eq_eq_eq_not, Bool.not_true, decide_eq_true_eq,
      decide_eq_false_iff_not]
    omega
  rw [if_neg hone]
  rcases runLoop_spec (m p).bitmap count hpos (bmapRadix - count + 1)
    (BitVec.allOnes 32 >>> (bmapRadix - count)) 0 (by rw [bmapRadix]; omega)
    (fun i hi => firstMask_bit count hle i hi) with ⟨hsome, hnone⟩
  have hle' : count ≤ bmapRadix := hle
  rw [if_pos hle']
  rcases hloop : runLoop (bmapRadix - count + 1) (m p).bitmap
    (BitVec.allOnes 32 >>> (bmapRadix - count)) 0 with _ | ⟨j, mask⟩
  · -- Every place of a run of this length has an allocated block.
    have hno : ¬ HasRun n F count := by
      rintro ⟨b, hb, hbn, hrun⟩
      rcases hnone hloop b zero_le (by omega) with ⟨i, hi, hlt, hbit⟩
      rw [h.1 i (by omega), hrun i hi hlt, decide_eq_true (show i < n by omega)] at hbit
      cases hbit
    refine ⟨within_update hn' hs _ (by simp only; omega), hrehint _ (fun _ c hc hrun => ?_),
      fun _ => hno⟩
    have hlt : c < count := by
      by_contra hge
      exact hno (hrun.shorter (by omega))
    omega
  rcases hsome j mask hloop with ⟨hj, hmask, hbits⟩
  rcases leaf_run h j count hpos hj hbits with ⟨hjn, hj32, hF⟩
  exact ⟨within_update hn' hs _ hs, j, rfl, hjn, hj32, hF, nodeOk_clear h mask j count hmask⟩

theorem Within.trans {m' m'' : Mem} (h : Within m m' d p n) (h' : Within m' m'' d p n) :
    Within m m'' d p n :=
  ⟨fun i hi => (h'.1 i hi).trans (h.1 i hi), h'.2⟩

theorem Within.refl (h : Shape m d p n) : Within m m d p n :=
  ⟨fun _ _ => rfl, h⟩

theorem parent_of_child {m' : Mem} {k : Nat} {G : Nat → Bool} (hn : n ≤ radix (d + 1))
    (hs : Shape m (d + 1) p n) (hk : k * radix d < n)
    (hw : Within m m' d (child p d k) (childLen d n k)) (hc : ChildrenOk H m d p n F)
    (hG : NodeOk H m' d (child p d k) (childLen d n k) (fun i => G (k * radix d + i)))
    (hFG : ∀ i, i < n → i < k * radix d ∨ (k + 1) * radix d ≤ i → G i = F i) :
    m' p = m p ∧ Within m m' (d + 1) p n ∧ ChildrenOk H m' d p n G := by
  have hk16 := lt_sixteen d n k hn hk
  have hbk := child_bounds p d k hk16
  have hself : m' p = m p := hw.1 p (by omega)
  -- The stretches of the other subtrees are untouched.
  have hother : ∀ j, j ≠ k → j < 16 → ∀ i, child p d j ≤ i → i ≤ child p d j + skip d →
      m' i = m i := by
    intro j hjk hj i hi hi'
    refine hw.1 i (fun hin => ?_)
    rcases Nat.lt_or_gt_of_ne hjk with hlt | hgt
    · have := child_disjoint p d j k hlt
      omega
    · have := child_disjoint p d k j hgt
      omega
  refine ⟨hself, ⟨fun i hi => hw.1 i (by omega), ?_, fun j hj => ?_, fun j hj hlt hle => ?_⟩,
    fun j hj => ?_⟩
  · rw [hself]
    exact hs.1
  · by_cases hjk : j = k
    · rw [hjk]
      exact hw.2
    · exact (hs.2.1 j hj).congr d (childLen_le d n j)
        (hother j hjk (lt_sixteen d n j hn hj))
  · have hne : j + 1 ≠ k := by
      intro heq
      rw [heq] at hle
      omega
    rw [hother (j + 1) hne (by omega) _ le_rfl (Nat.le_add_right _ _)]
    exact hs.2.2 j hj hlt hle
  by_cases hjk : j = k
  · rw [hjk]
    exact hG
  refine (hc j hj).congr d (childLen_le d n j) (hother j hjk (lt_sixteen d n j hn hj))
    (fun i hi => hFG _ ?_ ?_)
  · rw [childLen] at hi
    omega
  have hiR := lt_of_lt_of_le hi (childLen_le d n j)
  rcases Nat.lt_or_gt_of_ne hjk with hlt | hgt
  · have : (j + 1) * radix d ≤ k * radix d := Nat.mul_le_mul_right _ hlt
    rw [Nat.add_mul, Nat.one_mul] at this
    exact Or.inl (by omega)
  · have : (k + 1) * radix d ≤ j * radix d := Nat.mul_le_mul_right _ hgt
    exact Or.inr (by omega)

/-- The place where the loop over the subtrees stands: what is there exists,
    or it is the terminator. -/
theorem exists_or_terminator {k : Nat} (hs : Shape m (d + 1) p n) (hpos : 0 < n) (hk : k < 16)
    (hprev : k = 0 ∨ (k - 1) * radix d < n) :
    k * radix d < n ∨ (n ≤ k * radix d ∧ (m (child p d k)).bighint = -1) := by
  by_cases hlt : k * radix d < n
  · exact Or.inl hlt
  refine Or.inr ⟨by omega, ?_⟩
  rcases hprev with rfl | hprev
  · omega
  have hk0 : k ≠ 0 := by
    rintro rfl
    omega
  have hterm := hs.2.2 (k - 1) (by omega) hprev (by
    rw [Nat.sub_add_cancel (by omega)]
    omega)
  rwa [Nat.sub_add_cancel (by omega)] at hterm

/-- The count of what is left. -/
theorem cnt_without (n : Nat) (F : Nat → Bool) (a count : Nat) (h : a + count ≤ n)
    (hF : ∀ i, a ≤ i → i < a + count → F i = true) :
    cnt n (without F a count) = cnt n F - count := by
  have hsplit := cnt_split n F (inRange a count)
  have hsame : cnt n (fun i => F i && inRange a count i) = cnt n (inRange a count) := by
    refine cnt_congr n _ _ (fun i _ => ?_)
    cases hin : inRange a count i with
    | false => exact Bool.and_false _
    | true =>
      rw [inRange, decide_eq_true_eq] at hin
      rw [hF i hin.1 hin.2]
      rfl
  rw [hsame, cnt_inRange n a count h] at hsplit
  have hdef : cnt n (without F a count) = cnt n (fun i => F i && !inRange a count i) := rfl
  omega

/-- What the loop over the subtrees relies on. -/
structure AllocState (H : Prop) (m : Mem) (d p n : Nat) (F : Nat → Bool) : Prop where
  shape : Shape m (d + 1) p n
  children : ChildrenOk H m d p n F
  avail : (m p).avail = cnt n F
  hint : HintOk H (m p).bighint n F

/-- The search has gone through all subtrees in vain. -/
theorem allocFailed_spec {blk : Nat} (hn : n ≤ radix (d + 1)) (hpos : 0 < count)
    (h : AllocState H m d p n F) (hno : H → ¬ HasRun n F count) :
    Within m (allocFailed m p count) (d + 1) p n ∧
      AllocResult H (allocFailed m p count) (d + 1) p n blk count F none := by
  unfold allocFailed
  by_cases hge : (m p).bighint ≥ count
  · rw [if_pos hge]
    refine ⟨within_update hn h.shape _ (by simp only; omega), ?_, hno⟩
    refine nodeOk_of_children (h.children.congr hn (fun i hi hi' =>
      update_of_ne (by omega) _ _)) ?_ ?_
    · rw [update_self]
      exact h.avail
    rw [update_self]
    intro hH c hc hrun
    have hlt : c < count := by
      by_contra hge'
      exact hno hH (hrun.shorter (by omega))
    simp only
    omega
  · rw [if_neg hge]
    exact ⟨Within.refl h.shape, nodeOk_of_children h.children h.avail h.hint, hno⟩

theorem allocLoop_spec (hpos : 0 < count) (hle : count ≤ 32) (d p n : Nat) (F : Nat → Bool)
    (blk₀ : Nat) (hn : n ≤ radix (d + 1)) (hn0 : 0 < n)
    (hsub : ∀ m p n blk F, 0 < n → n ≤ radix d → Shape m d p n → NodeOk H m d p n F →
      ∃ r m', blstAlloc d m p blk count = some (r, m') ∧ Within m m' d p n ∧
        AllocResult H m' d p n blk count F r) (fuel : Nat) :
    ∀ (k : Nat) (m : Mem), fuel + k = 16 → (k = 0 ∨ (k - 1) * radix d < n) →
      AllocState H m d p n F → (H → ∀ j, j < k → j * radix d < n →
        ¬ HasRun (childLen d n j) (fun i => F (j * radix d + i)) count) →
      ∃ r m', allocLoop (blstAlloc d) d p count fuel k (blk₀ + k * radix d) m = some (r, m') ∧
        Within m m' (d + 1) p n ∧ AllocResult H m' (d + 1) p n blk₀ count F r := by
  have hR := radix_ge d
  induction fuel with
  | zero =>
    intro k m hk hprev hst hseen
    refine ⟨none, _, rfl, allocFailed_spec hn hpos hst (fun hH hrun => ?_)⟩
    rcases hasRun_child d n F count hpos hrun with ⟨j, hj, hrun'⟩
    exact hseen hH j (by have := lt_sixteen d n j hn hj; omega) hj hrun'
  | succ fuel ih =>
    intro k m hk hprev hst hseen
    unfold allocLoop
    simp only
    -- Going on behind a subtree in which there is no run.
    have hnext : ∀ m', (m' p = m p) → Within m m' (d + 1) p n → ChildrenOk H m' d p n F →
        k * radix d < n → (H → ¬ HasRun (childLen d n k) (fun i => F (k * radix d + i)) count) →
        ∃ r m'', allocLoop (blstAlloc d) d p count fuel (k + 1) (blk₀ + k * radix d + radix d) m' =
          some (r, m'') ∧ Within m m'' (d + 1) p n ∧
          AllocResult H m'' (d + 1) p n blk₀ count F r := by
      intro m' hself hw hc hin hno
      rcases ih (k + 1) m' (by omega) (Or.inr (by rwa [Nat.add_sub_cancel]))
        ⟨hw.2, hc, by rw [hself]; exact hst.avail, by rw [hself]; exact hst.hint⟩
        (fun hH j hj hjn => by
          rcases Nat.lt_succ_iff_lt_or_eq.mp hj with hlt | rfl
          · exact hseen hH j hlt hjn
          · exact hno hH) with ⟨r, m'', hloop, hw', hres⟩
      rw [Nat.add_mul, Nat.one_mul, ← Nat.add_assoc] at hloop
      exact ⟨r, m'', hloop, hw.trans hw', hres⟩
    rcases exists_or_terminator hst.shape hn0 (by omega) hprev with hin | ⟨hout, hterm⟩
    · have hchild := hst.children k hin
      have hcl := childLen_pos d n k hin
      by_cases hfits : (count : Int) ≤ (m (child p d k)).bighint
      · rw [if_pos hfits]
        rcases hsub m (child p d k) (childLen d n k) (blk₀ + k * radix d) _ hcl
          (childLen_le d n k) (hst.shape.2.1 k hin) hchild with ⟨r, m', hrun, hw, hres⟩
        rw [hrun]
        cases r with
        | none =>
          rcases parent_of_child hn hst.shape hin hw hst.children hres.1 (fun _ _ _ => rfl) with
            ⟨hself, hw', hc'⟩
          exact hnext m' hself hw' hc' hin hres.2
        | some b =>
          rcases hres with ⟨a, hb, han, ha32, hF, hnode⟩
          -- The run, counted from the node above.
          have hrange : ∀ i, inRange (k * radix d + a) count (k * radix d + i) =
              inRange a count i := by
            intro i
            simp only [inRange, decide_eq_decide]
            omega
          have hlen : a + count ≤ radix d ∧ k * radix d + a + count ≤ n := by
            rw [childLen] at han
            omega
          rcases parent_of_child (G := without F (k * radix d + a) count) hn hst.shape hin hw
            hst.children (hnode.congr d (childLen_le d n k) (fun _ _ _ => rfl) (fun i _ => by
              simp only [without, hrange])) (fun i _ hi => by
              rw [Nat.add_mul, Nat.one_mul] at hi
              have hno : inRange (k * radix d + a) count i = false := by
                rw [inRange, decide_eq_false_iff_not]
                omega
              simp only [without, hno, Bool.not_false, Bool.and_true]) with ⟨hself, hw', hc'⟩
          have hFrun : ∀ i, k * radix d + a ≤ i → i < k * radix d + a + count → F i = true := by
            intro i hi hi'
            have h : F (k * radix d + (i - k * radix d)) = true :=
              hF (i - k * radix d) (by omega) (by omega)
            rwa [Nat.add_sub_cancel' (by omega)] at h
          have hcount := cnt_without n F (k * radix d + a) count (by omega) hFrun
          refine ⟨some b, _, rfl, hw'.trans (within_update hn hw'.2 _ ?_), k * radix d + a, ?_,
            by omega, ?_, hFrun, nodeOk_of_children (hc'.congr hn (fun i hi hi' =>
              update_of_ne (by omega) _ _)) ?_ ?_⟩
          · have := hst.shape.1
            rw [hself]
            simp only
            split <;> omega
          · rw [hb, Nat.add_assoc]
          · rcases dvd_radix d with ⟨q, hq⟩
            rw [hq, show k * (32 * q) + a = 32 * (k * q) + a by
              rw [Nat.mul_left_comm], Nat.mul_add_mod]
            exact ha32
          · rw [update_self]
            simp only [hself, hst.avail, hcount]
          rw [update_self]
          intro hH c hc hrun'
          have hle' := hrun'.le_cnt
          rw [hcount] at hle'
          have hold := hst.hint hH c hc (hrun'.mono (fun i _ hi => without_le _ _ _ _ hi))
          simp only [hself, hst.avail]
          split
          · omega
          · exact hold
      · rw [if_neg hfits]
        have hne : ¬ (m (child p d k)).bighint = -1 := by
          have := (hst.shape.2.1 k hin).hint
          omega
        rw [if_neg hne, if_neg (by omega)]
        refine hnext m rfl (Within.refl hst.shape) hst.children hin (fun hH hrun => hfits ?_)
        cases d with
        | zero => exact hchild.2 hH count hpos hrun
        | succ d => exact hchild.2.1 hH count hpos hrun
    · have hsmall : ¬ (count : Int) ≤ (m (child p d k)).bighint := by
        rw [hterm]
        omega
      rw [if_neg hsmall, if_pos hterm]
      refine ⟨none, _, rfl, allocFailed_spec hn hpos hst (fun hH hrun => ?_)⟩
      rcases hasRun_child d n F count hpos hrun with ⟨j, hj, hrun'⟩
      refine hseen hH j ?_ hj hrun'
      by_contra hge
      have : k * radix d ≤ j * radix d := Nat.mul_le_mul_right _ (by omega)
      omega

/-- A node that is entirely free exists in full. -/
theorem full_of_avail {R : Nat} (hn : n ≤ R) (h : cnt n F = R) :
    n = R ∧ ∀ i, i < n → F i = true := by
  have hle := cnt_le n F
  exact ⟨by omega, fun i hi => cnt_eq_bound n F (by omega) i hi⟩

theorem childLen_full (d k : Nat) (hk : k * radix d < radix (d + 1)) :
    childLen d (radix (d + 1)) k = radix d := by
  have hk16 := lt_sixteen d _ k le_rfl hk
  have hmul : (k + 1) * radix d ≤ 16 * radix d := Nat.mul_le_mul_right _ hk16
  rw [Nat.add_mul, Nat.one_mul] at hmul
  rw [childLen, radix_succ]
  omega

/-- Entering a node that is entirely free writes its subtrees as free. -/
theorem initSub_allFree (hn : n ≤ radix (d + 1)) (hn0 : 0 < n) (hs : Shape m (d + 1) p n)
    (h : NodeOk H m (d + 1) p n F) (hfull : (m p).avail = radix (d + 1)) :
    initSub (allFree d) d p metaRadix 0 m p = m p ∧
      Within m (initSub (allFree d) d p metaRadix 0 m) (d + 1) p n ∧
      ChildrenOk H (initSub (allFree d) d p metaRadix 0 m) d p n F := by
  rcases full_of_avail hn (h.1.symm.trans hfull) with ⟨rfl, hF⟩
  have hnode : ∀ b, 0 ≤ (allFree d b).bighint := by
    intro b
    unfold allFree
    split
    · exact Int.natCast_nonneg 32
    · exact Int.natCast_nonneg (radix d)
  rcases initSub_shape (allFree d) m d p _ hn hn0 hs hnode with ⟨hself, hout, hshape⟩
  refine ⟨hself, ⟨hout, hshape⟩, fun k hk => ?_⟩
  rw [childLen_full d k hk]
  refine (nodeOk_allFree H _ d (child p d k) _ ((initSub_spec (allFree d) m d p _ hn hn0 hs).1 k
    hk)).congr d le_rfl (fun _ _ _ => rfl) (fun i hi => hF _ ?_)
  have hlen := childLen_full d k hk
  rw [childLen] at hlen
  omega

/-- Whether the node was collapsed or not, its subtrees can be entered. -/
theorem alloc_enter (hn : n ≤ radix (d + 1)) (hn0 : 0 < n) (hs : Shape m (d + 1) p n)
    (h : NodeOk H m (d + 1) p n F) (hzero : (m p).avail ≠ 0) :
    ∃ m₁, (if (m p).avail = radix (d + 1) then initSub (allFree d) d p metaRadix 0 m else m) = m₁ ∧
      m₁ p = m p ∧ Within m m₁ (d + 1) p n ∧ AllocState H m₁ d p n F := by
  by_cases hfull : (m p).avail = radix (d + 1)
  · rw [if_pos hfull]
    rcases initSub_allFree hn hn0 hs h hfull with ⟨hself, hw, hc⟩
    exact ⟨_, rfl, hself, hw, hw.2, hc, by rw [hself]; exact h.1, by rw [hself]; exact h.2.1⟩
  rw [if_neg hfull]
  have hbound := cnt_le n F
  have havail := h.1
  exact ⟨m, rfl, rfl, Within.refl hs, hs, h.2.2 (by omega) (by omega), h.1, h.2.1⟩

/-- An allocation in a subtree finds a run or leaves the blocks as they are,
    and where hints are right it only fails when there is no run. -/
theorem blstAlloc_spec (hpos : 0 < count) (hle : count ≤ 32) (d : Nat) :
    ∀ (m : Mem) (p n blk : Nat) (F : Nat → Bool), 0 < n → n ≤ radix d → Shape m d p n →
      NodeOk H m d p n F → ∃ r m', blstAlloc d m p blk count = some (r, m') ∧
        Within m m' d p n ∧ AllocResult H m' d p n blk count F r := by
  induction d with
  | zero =>
    intro m p n blk F _ hn hs h
    exact ⟨_, _, rfl, blstLeafAlloc_spec H count hpos hle m p n blk F hn hs h⟩
  | succ d ih =>
    intro m p n blk F hn0 hn hs h
    unfold blstAlloc
    by_cases hzero : (m p).avail = 0
    · rw [if_pos hzero]
      have hno := fun i hi => cnt_eq_zero n F (h.1.symm.trans hzero) i hi
      have hnorun : ∀ c, 0 < c → ¬ HasRun n F c := by
        rintro c hc ⟨b, -, hbn, hrun⟩
        have hb := hrun b le_rfl (by omega)
        rw [hno b (by omega)] at hb
        cases hb
      refine ⟨none, _, rfl, within_update hn hs _ (Int.natCast_nonneg count), ?_,
        fun _ => hnorun count hpos⟩
      rw [NodeOk, update_self]
      exact ⟨h.1, fun _ c hc hrun => absurd hrun (hnorun c hc), fun hav => absurd hzero (by
        simp only at hav
        omega)⟩
    rw [if_neg hzero]
    rcases alloc_enter hn hn0 hs h hzero with ⟨m₁, hm₁, -, hw, hst⟩
    simp only [hm₁]
    rcases allocLoop_spec hpos hle d p n F blk hn hn0 ih metaRadix 0 m₁ rfl (Or.inl rfl) hst
      (fun _ j hj => absurd hj (Nat.not_lt_zero j)) with ⟨r, m', hloop, hw', hres⟩
    rw [Nat.zero_mul, Nat.add_zero] at hloop
    exact ⟨r, m', hloop, hw.trans hw', hres⟩

end FreeBSDKern.Swap
