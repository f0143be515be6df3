import FreeBSDKern.Swap.Alloc

/-!
# Freeing a Range

A range is freed subtree by subtree. Where the subtrees are stale they are
written as allocated first, and where the range makes the node entirely free
the walk stops there and the subtrees become stale.

In that last case the hint of the node stays as it was, although every leaf
below it is now one run of thirty-two blocks. `FreeSafe` says that this does not
do harm: no node that already had free blocks and a lower hint becomes entirely
free. Only the part of the invariant that is about hints needs it.

## Main definitions

* `withRange`: The free blocks once a range is added.
* `FreeSafe`: No node with a low hint becomes entirely free.
* `FreeState`: What the loop over the subtrees relies on.

## Theorems

* `blstLeafFree_spec`: A leaf.
* `freeLoop_spec`: The loop over the subtrees.
* `blstFree_spec`: The whole walk.
-/

namespace FreeBSDKern.Swap

open Function

def withRange (F : Nat → Bool) (a count i : Nat) : Bool := F i || inRange a count i

/-- The part of a range that lies in a subtree, counted from there. -/
def partOff (d off k : Nat) : Nat := off - k * radix d

def partLen (d off count k : Nat) : Nat :=
  min (off + count) ((k + 1) * radix d) - max off (k * radix d)

/-- No node that has free blocks and a hint below the length of a leaf becomes
    entirely free. -/
def FreeSafe (m : Mem) : Nat → Nat → Nat → Nat → Prop
  | 0, _, _, _ => True
  | d + 1, p, off, count => (m p).avail ≠ 0 →
      if (m p).avail + count = radix (d + 1) then 32 ≤ (m p).bighint
      else ∀ k, k < 16 → k * radix d < off + count → off < (k + 1) * radix d →
        FreeSafe m d (child p d k) (partOff d off k) (partLen d off count k)

instance FreeSafe.decidable (m : Mem) : ∀ d p off count, Decidable (FreeSafe m d p off count)
  | 0, _, _, _ => isTrue trivial
  | d + 1, p, off, count =>
    have : ∀ k, Decidable (FreeSafe m d (child p d k) (partOff d off k) (partLen d off count k)) :=
      fun k => FreeSafe.decidable m d (child p d k) (partOff d off k) (partLen d off count k)
    inferInstanceAs (Decidable ((m p).avail ≠ 0 →
      if (m p).avail + count = radix (d + 1) then 32 ≤ (m p).bighint
      else ∀ k, k < 16 → k * radix d < off + count → off < (k + 1) * radix d →
        FreeSafe m d (child p d k) (partOff d off k) (partLen d off count k)))

theorem FreeSafe.congr (d : Nat) : ∀ {m m' : Mem} {p off count : Nat}, FreeSafe m d p off count →
    (∀ i, p ≤ i → i ≤ p + skip d → m' i = m i) → FreeSafe m' d p off count := by
  induction d with
  | zero => intro m m' p off count _ _; trivial
  | succ d ih =>
    intro m m' p off count h hsame
    unfold FreeSafe at h ⊢
    rw [hsame p le_rfl (Nat.le_add_right p _)]
    intro hne
    have h' := h hne
    by_cases hfull : (m p).avail + count = radix (d + 1)
    · rw [if_pos hfull] at h' ⊢
      exact h'
    rw [if_neg hfull] at h' ⊢
    intro k hk hlt hlt'
    have hb := child_bounds p d k hk
    exact ih (h' k hk hlt hlt') (fun i hi hi' => hsame i (by omega) (by omega))

variable {count d n k p off : Nat} {F : Nat → Bool} {H : Prop} {m : Mem}

theorem inRange_false {a i : Nat} (h : i < a ∨ a + count ≤ i) : inRange a count i = false := by
  rw [inRange, decide_eq_false_iff_not]
  omega

/-- The count with a range added. -/
theorem cnt_withRange (n : Nat) (F : Nat → Bool) (a count : Nat) (h : a + count ≤ n)
    (hF : ∀ i, a ≤ i → i < a + count → F i = false) :
    cnt n (withRange F a count) = cnt n F + count := by
  have hsplit := cnt_split n (withRange F a count) (inRange a count)
  have hin : cnt n (fun i => withRange F a count i && inRange a count i) = count := by
    refine (cnt_congr n _ (inRange a count) (fun i _ => ?_)).trans (cnt_inRange n a count h)
    cases hr : inRange a count i with
    | false => exact Bool.and_false _
    | true => simp [withRange, hr]
  have hout : cnt n (fun i => withRange F a count i && !inRange a count i) = cnt n F := by
    refine cnt_congr n _ _ (fun i _ => ?_)
    cases hr : inRange a count i with
    | false => simp [withRange, hr]
    | true =>
      rw [inRange, decide_eq_true_eq] at hr
      simp [withRange, hF i hr.1 hr.2]
  omega

/-- A run in a subtree is a run under the node. -/
theorem hasRun_of_child {c : Nat} (hc : 0 < c)
    (h : HasRun (childLen d n k) (fun i => F (k * radix d + i)) c) : HasRun n F c := by
  rcases h with ⟨b, hleaf, hn, hrun⟩
  rw [childLen] at hn
  refine ⟨k * radix d + b, ?_, by omega, fun i hi hi' => ?_⟩
  · have hdvd : 32 ∣ k * radix d := Nat.dvd_mul_left_of_dvd (dvd_radix d) k
    omega
  have h := hrun (i - k * radix d) (by omega) (by omega)
  simp only at h
  rwa [Nat.add_sub_cancel' (by omega)] at h

theorem NodeOk.hint (h : NodeOk H m d p n F) : HintOk H (m p).bighint n F := by
  cases d with
  | zero => exact h.2
  | succ d => exact h.2.1

theorem hintOk_of_le {hint : Int} (n : Nat) (F : Nat → Bool) (h : 32 ≤ hint) :
    HintOk H hint n F := by
  intro _ c _ hrun
  have := hrun.le
  omega

theorem blstLeafFree_spec (H : Prop) (m : Mem) (p n blk off count : Nat) (F : Nat → Bool)
    (hn : n ≤ 32) (hblk : 32 ∣ blk) (hpos : 0 < count) (hin : off + count ≤ n) (hs : Shape m 0 p n)
    (h : NodeOk H m 0 p n F) (hF : ∀ i, off ≤ i → i < off + count → F i = false) :
    ∃ m', blstLeafFree m p (blk + off) count = some m' ∧ Within m m' 0 p n ∧
      NodeOk H m' 0 p n (withRange F off count) := by
  have hmod : (blk + off) % 32 = off := by omega
  have hmask : ∀ i, i < 32 → (rangeMask (blk + off) count).getLsbD i = inRange off count i := by
    intro i hi
    rw [rangeMask_bit (blk + off) count (by omega) i hi, hmod, inRange]
  have hclear : (m p).bitmap &&& rangeMask (blk + off) count = 0 := by
    refine (eq_zero_iff_bits _).mpr (fun i hi => ?_)
    rw [BitVec.getLsbD_and, h.1 i hi, hmask i hi]
    cases hr : inRange off count i with
    | false => exact Bool.and_false _
    | true =>
      rw [inRange, decide_eq_true_eq] at hr
      rw [hF i hr.1 hr.2, Bool.and_false, Bool.false_and]
  unfold blstLeafFree
  rw [if_pos hclear]
  refine ⟨_, rfl, within_update hn hs _ (by simp [bmapRadix]), ?_⟩
  rw [NodeOk, update_self]
  refine ⟨fun i hi => ?_, hintOk_of_le n _ (Int.le_refl _)⟩
  simp only [BitVec.getLsbD_or, h.1 i hi, hmask i hi, withRange]
  by_cases hlt : i < n
  · simp [hlt]
  · have hout : inRange off count i = false := inRange_false (Or.inr (by omega))
    simp [hlt, hout]

/-- The blocks that are free when the loop stands before the `k`-th subtree. -/
def freedUpTo (F : Nat → Bool) (d off count k i : Nat) : Bool :=
  F i || (inRange off count i && decide (i < k * radix d))

/-- What the loop over the subtrees relies on. -/
structure FreeState (H : Prop) (m : Mem) (d p n off count k : Nat) (F : Nat → Bool) : Prop where
  shape : Shape m (d + 1) p n
  children : ChildrenOk H m d p n (freedUpTo F d off count k)
  hint : HintOk H (m p).bighint n (freedUpTo F d off count k)
  safe : H → ∀ j, k ≤ j → j < 16 → j * radix d < off + count → off < (j + 1) * radix d →
    FreeSafe m d (child p d j) (partOff d off j) (partLen d off count j)

/-- Raise the hint of a node to that of a subtree. -/
def raiseHint (m : Mem) (p i : Nat) : Mem :=
  if (m p).bighint < (m i).bighint then
    update m p { m p with bighint := (m i).bighint }
  else m

theorem raiseHint_spec (m : Mem) (p i : Nat) :
    (∀ j, j ≠ p → raiseHint m p i j = m j) ∧ (raiseHint m p i p).avail = (m p).avail ∧
      (m p).bighint ≤ (raiseHint m p i p).bighint ∧
      (m i).bighint ≤ (raiseHint m p i p).bighint := by
  unfold raiseHint
  by_cases hlt : (m p).bighint < (m i).bighint
  · rw [if_pos hlt]
    refine ⟨fun j hj => update_of_ne hj _ _, ?_⟩
    rw [update_self]
    exact ⟨rfl, Int.le_of_lt hlt, Int.le_refl _⟩
  · rw [if_neg hlt]
    exact ⟨fun _ _ => rfl, rfl, Int.le_refl _, by omega⟩

/-- One subtree of the loop: its part of the range is free, and the hint of the
    node is not below that of the subtree. -/
theorem freeState_step {m' : Mem} (hn : n ≤ radix (d + 1)) (hin : k * radix d < n)
    (hoff : off < (k + 1) * radix d) (hst : FreeState H m d p n off count k F)
    (hw : Within m m' d (child p d k) (childLen d n k))
    (hnode : NodeOk H m' d (child p d k) (childLen d n k)
      (withRange (fun i => freedUpTo F d off count k (k * radix d + i)) (partOff d off k)
        (partLen d off count k))) :
    m' p = m p ∧ Within m (raiseHint m' p (child p d k)) (d + 1) p n ∧
      FreeState H (raiseHint m' p (child p d k)) d p n off count (k + 1) F := by
  have hk16 := lt_sixteen d n k hn hin
  have hbk := child_bounds p d k hk16
  have hmul : (k + 1) * radix d = k * radix d + radix d := by rw [Nat.add_mul, Nat.one_mul]
  -- What the subtree reads as is its part of the next state.
  have hpart : ∀ i, i < childLen d n k → freedUpTo F d off count (k + 1) (k * radix d + i) =
      withRange (fun i => freedUpTo F d off count k (k * radix d + i)) (partOff d off k)
        (partLen d off count k) i := by
    intro i hi
    have hiR := lt_of_lt_of_le hi (childLen_le d n k)
    simp only [freedUpTo, withRange, Bool.or_assoc]
    congr 1
    rw [Bool.eq_iff_iff]
    simp only [inRange, partOff, partLen, hmul, Bool.and_eq_true, Bool.or_eq_true,
      decide_eq_true_eq]
    omega
  have hrest : ∀ i, i < n → i < k * radix d ∨ (k + 1) * radix d ≤ i →
      freedUpTo F d off count (k + 1) i = freedUpTo F d off count k i := by
    intro i _ hi
    simp only [freedUpTo]
    congr 2
    rw [decide_eq_decide]
    omega
  rcases parent_of_child hn hst.shape hin hw hst.children
    (hnode.congr d (childLen_le d n k) (fun _ _ _ => rfl) hpart) hrest with ⟨hself, hw', hc⟩
  rcases raiseHint_spec m' p (child p d k) with ⟨hkeep, -, hge, hge'⟩
  have hw'' : Within m' (raiseHint m' p (child p d k)) (d + 1) p n := by
    refine ⟨fun i hi => hkeep i (by omega), hw'.2.rehint hn ?_ (fun i hi _ => hkeep i (by omega))⟩
    have := hw'.2.1
    omega
  refine ⟨hself, hw'.trans hw'', hw''.2, hc.congr hn (fun i hi _ => hkeep i (by omega)), ?_, ?_⟩
  · -- A run lies in one subtree: the one just freed into, or another.
    intro hH c hcpos hrun
    rcases hasRun_child d n _ c hcpos hrun with ⟨j, hj, hrunj⟩
    by_cases hjk : j = k
    · subst hjk
      have := (hnode.congr d (childLen_le d n j) (fun _ _ _ => rfl) hpart).hint hH c hcpos hrunj
      omega
    have hold : HasRun n (freedUpTo F d off count k) c := by
      refine hasRun_of_child (d := d) (k := j) hcpos (hrunj.mono (fun i hi hG => ?_))
      have hiR := lt_of_lt_of_le hi (childLen_le d n j)
      rw [childLen] at hi
      rw [← hrest (j * radix d + i) (by omega) ?_]
      · exact hG
      rcases Nat.lt_or_gt_of_ne hjk with hlt | hgt
      · have : (j + 1) * radix d ≤ k * radix d := Nat.mul_le_mul_right _ hlt
        rw [Nat.add_mul, Nat.one_mul] at this
        exact Or.inl (by omega)
      · have : (k + 1) * radix d ≤ j * radix d := Nat.mul_le_mul_right _ hgt
        exact Or.inr (by omega)
    have hbound := hst.hint hH c hcpos hold
    rw [hself] at hge
    omega
  intro hH j hj hj16 hlt hlt'
  refine (hst.safe hH j (by omega) hj16 hlt hlt').congr d (fun i hi hi' => ?_)
  have hb := child_bounds p d j hj16
  have hdis := child_disjoint p d k j (by omega)
  rw [hkeep i (by omega), hw.1 i (by omega)]

/-- Where the part of a range in a subtree starts and ends. -/
theorem part_bounds (hin : k * radix d < off + count) (hoff : off < (k + 1) * radix d) :
    k * radix d + partOff d off k = max off (k * radix d) ∧
      k * radix d + partOff d off k + partLen d off count k =
        min (off + count) ((k + 1) * radix d) := by
  have hle : k * radix d ≤ (k + 1) * radix d := Nat.mul_le_mul_right (radix d) (Nat.le_succ k)
  rw [partLen, partOff]
  omega

theorem freeLoop_spec (d p n blk off count : Nat) (F : Nat → Bool) (hn : n ≤ radix (d + 1))
    (hblk : 32 ∣ blk) (hpos : 0 < count) (hin : off + count ≤ n)
    (hF : ∀ i, off ≤ i → i < off + count → F i = false)
    (hsub : ∀ m p n blk off count F, n ≤ radix d → 32 ∣ blk → 0 < count → off + count ≤ n →
      Shape m d p n → NodeOk H m d p n F → (∀ i, off ≤ i → i < off + count → F i = false) →
      (H → FreeSafe m d p off count) → ∃ m', blstFree d m p (blk + off) count blk = some m' ∧
        Within m m' d p n ∧ NodeOk H m' d p n (withRange F off count)) (fuel : Nat) :
    ∀ (k : Nat) (m : Mem) (freeBlk rest : Nat), fuel + k = 16 → off < (k + 1) * radix d →
      freeBlk = blk + max off (min (k * radix d) (off + count)) →
      freeBlk + rest = blk + off + count → FreeState H m d p n off count k F →
      ∃ m', freeLoop (blstFree d) d p fuel k freeBlk rest (blk + k * radix d) m = some m' ∧
        (m' p).avail = (m p).avail ∧ Within m m' (d + 1) p n ∧
        FreeState H m' d p n off count 16 F := by
  have hR := radix_pos d
  -- Behind the range nothing changes any more.
  have hlast : ∀ k m, off + count ≤ k * radix d → k ≤ 16 → FreeState H m d p n off count k F →
      FreeState H m d p n off count 16 F := by
    intro k m hk hk16 hst
    have hmono : k * radix d ≤ 16 * radix d := Nat.mul_le_mul_right _ hk16
    have heq : freedUpTo F d off count k = freedUpTo F d off count 16 := by
      ext i
      simp only [freedUpTo]
      congr 1
      rw [Bool.eq_iff_iff]
      simp only [inRange, Bool.and_eq_true, decide_eq_true_eq]
      omega
    exact ⟨hst.shape, heq ▸ hst.children, heq ▸ hst.hint, fun hH j hj hj' => by omega⟩
  induction fuel with
  | zero =>
    intro k m freeBlk rest hk _ _ _ hst
    rw [show k = 16 by omega] at hst
    exact ⟨m, rfl, rfl, Within.refl hst.shape, hst⟩
  | succ fuel ih =>
    intro k m freeBlk rest hk hoff hfree hrest hst
    have hmul : (k + 1) * radix d = k * radix d + radix d := by rw [Nat.add_mul, Nat.one_mul]
    unfold freeLoop
    by_cases hgo : blk + k * radix d < freeBlk + rest
    · rw [if_pos hgo]
      have hkin : k * radix d < off + count := by omega
      -- The part of the range that lies in this subtree.
      rcases part_bounds hkin hoff with ⟨hstart, hstop⟩
      have hbase : freeBlk = blk + k * radix d + partOff d off k := by
        rw [hfree, Nat.min_eq_left hkin.le, ← hstart, Nat.add_assoc]
      have hle : k * radix d + partOff d off k + partLen d off count k ≤ off + count :=
        hstop.le.trans (Nat.min_le_left _ _)
      have hv : (if blk + k * radix d + radix d - freeBlk > rest then rest
          else blk + k * radix d + radix d - freeBlk) = partLen d off count k := by
        rw [hmul] at hstop
        split <;> omega
      simp only [hv]
      have hhint : (m p).bighint ≠ -1 := by
        have := hst.shape.1
        omega
      rw [if_neg hhint]
      have hlen : partOff d off k + partLen d off count k ≤ childLen d n k := by
        rw [hmul] at hstop
        rw [childLen]
        omega
      -- The part of the range in this subtree is not free yet.
      have hpartF : ∀ i, partOff d off k ≤ i → i < partOff d off k + partLen d off count k →
          freedUpTo F d off count k (k * radix d + i) = false := by
        intro i hi hi'
        simp only [freedUpTo]
        rw [hF _ (by omega) (by omega), Bool.false_or, Bool.and_eq_false_iff,
          decide_eq_false_iff_not]
        exact Or.inr (by omega)
      rcases hsub m (child p d k) (childLen d n k) (blk + k * radix d) (partOff d off k)
        (partLen d off count k) _ (childLen_le d n k)
        (Nat.dvd_add hblk (Nat.dvd_mul_left_of_dvd (dvd_radix d) k))
        (by omega) hlen (hst.shape.2.1 k (by omega))
        (hst.children k (by omega)) hpartF
        (fun hH => hst.safe hH k le_rfl (by omega) hkin hoff) with ⟨m', hrun, hw, hnode⟩
      rw [hbase, hrun]
      simp only
      rcases freeState_step hn (by omega) hoff hst hw hnode with ⟨hself, hw', hst'⟩
      have hoff' : off < (k + 1 + 1) * radix d := by
        rw [Nat.add_mul (k + 1), Nat.one_mul]
        omega
      have hnext : blk + k * radix d + partOff d off k + partLen d off count k =
          blk + max off (min ((k + 1) * radix d) (off + count)) := by
        rw [Nat.min_comm, ← hstop, Nat.max_eq_right (by omega)]
        omega
      have hleft : blk + k * radix d + partOff d off k + partLen d off count k +
          (rest - partLen d off count k) = blk + off + count := by
        omega
      rcases ih (k + 1) (raiseHint m' p (child p d k)) _ _ (by omega) hoff' hnext hleft hst' with
        ⟨m'', hloop, hav, hw'', hfin⟩
      rw [hmul, ← Nat.add_assoc] at hloop
      exact ⟨m'', hloop, by rw [hav, (raiseHint_spec m' p (child p d k)).2.1, hself],
        hw'.trans hw'', hfin⟩
    · rw [if_neg hgo]
      refine ⟨m, rfl, rfl, Within.refl hst.shape, hlast k m ?_ (by omega) hst⟩
      omega

/-- Entering a node that is entirely allocated writes its subtrees as
    allocated. -/
theorem initSub_allAllocated (hn : n ≤ radix (d + 1)) (hn0 : 0 < n) (hs : Shape m (d + 1) p n)
    (hF : ∀ i, i < n → F i = false) : initSub (allAllocated d) d p metaRadix 0 m p = m p ∧
      Within m (initSub (allAllocated d) d p metaRadix 0 m) (d + 1) p n ∧
      ChildrenOk H (initSub (allAllocated d) d p metaRadix 0 m) d p n F ∧
      ∀ k, k * radix d < n → ∀ off count,
        FreeSafe (initSub (allAllocated d) d p metaRadix 0 m) d (child p d k) off count := by
  have hnode : ∀ b, 0 ≤ (allAllocated d b).bighint := by
    intro b
    unfold allAllocated
    split <;> exact Int.le_refl 0
  rcases initSub_shape (allAllocated d) m d p _ hn hn0 hs hnode with ⟨hself, hout, hshape⟩
  have hset := (initSub_spec (allAllocated d) m d p _ hn hn0 hs).1
  refine ⟨hself, ⟨hout, hshape⟩, fun k hk => ?_, fun k hk off count => ?_⟩
  · refine (nodeOk_allAllocated H _ d (child p d k) _ _ (hset k hk)).congr d (childLen_le d n k)
      (fun _ _ _ => rfl) (fun i hi => hF _ ?_)
    rw [childLen] at hi
    omega
  cases d with
  | zero => trivial
  | succ d =>
    intro hne
    rw [hset k hk] at hne
    exact absurd rfl hne

/-- A node that becomes entirely free. -/
theorem nodeOk_full (havail : (m p).avail = cnt n F) (hfull : (m p).avail = radix (d + 1))
    (hhint : H → 32 ≤ (m p).bighint) : NodeOk H m (d + 1) p n F := by
  refine ⟨havail, fun hH => hintOk_of_le n F (hhint hH) hH, fun _ hlt => ?_⟩
  omega

/-- Where the loop begins nothing has been freed yet. -/
theorem freedUpTo_start (F : Nat → Bool) (count : Nat) (h : k * radix d ≤ off) :
    freedUpTo F d off count k = F := by
  ext i
  have hno : (inRange off count i && decide (i < k * radix d)) = false := by
    rw [Bool.eq_false_iff, Ne, inRange, Bool.and_eq_true, decide_eq_true_eq, decide_eq_true_eq]
    omega
  rw [freedUpTo, hno, Bool.or_false]

/-- The node once its count is raised and its subtrees can be entered. -/
theorem free_enter (hn : n ≤ radix (d + 1)) (hpos : 0 < count) (hin : off + count ≤ n)
    (hk : k * radix d ≤ off) (hs : Shape m (d + 1) p n) (h : NodeOk H m (d + 1) p n F)
    (hcount : cnt n F + count ≤ n) (hsafe : H → FreeSafe m (d + 1) p off count) :
    ∃ m₁, (if (m p).avail = 0 then
        (if count ≠ radix (d + 1) then initSub (allAllocated d) d p metaRadix 0
            (update m p { m p with avail := count, bighint := count })
          else update m p { m p with avail := count, bighint := count })
        else update m p { m p with avail := (m p).avail + count }) = m₁ ∧
      (m₁ p).avail = cnt n F + count ∧ Within m m₁ (d + 1) p n ∧
      ((m₁ p).avail = radix (d + 1) → H → 32 ≤ (m₁ p).bighint) ∧
      ((m₁ p).avail ≠ radix (d + 1) → FreeState H m₁ d p n off count k F) := by
  have havail := h.1
  by_cases hzero : (m p).avail = 0
  · rw [if_pos hzero]
    have hF := fun i hi => cnt_eq_zero n F (havail.symm.trans hzero) i hi
    have hw := within_update hn hs { m p with avail := count, bighint := count }
      (Int.natCast_nonneg count)
    by_cases hfull : count ≠ radix (d + 1)
    · rw [if_pos hfull]
      rcases initSub_allAllocated (H := H) hn (by omega) hw.2 hF with ⟨hself, hw', hc, hsafe'⟩
      rw [update_self] at hself
      refine ⟨_, rfl, ?_, hw.trans hw', fun heq => ?_, fun _ => ⟨hw'.2, ?_, ?_, ?_⟩⟩
      · rw [hself]
        simp only
        omega
      · rw [hself] at heq
        exact absurd heq hfull
      · rw [freedUpTo_start F count hk]
        exact hc
      · rw [freedUpTo_start F count hk]
        rintro _ c hc ⟨b, -, hbn, hrun⟩
        have hb := hrun b le_rfl (by omega)
        rw [hF b (by omega)] at hb
        cases hb
      · intro _ j _ _ hlt _
        exact hsafe' j (by omega) _ _
    rw [if_neg hfull]
    have hR := radix_ge (d + 1)
    refine ⟨_, rfl, ?_, hw, fun _ _ => ?_, fun hne => ?_⟩
    · rw [update_self]
      simp only
      omega
    · rw [update_self]
      simp only
      omega
    · rw [update_self] at hne
      exact absurd (not_not.mp hfull) hne
  · rw [if_neg hzero]
    have hw := within_update hn hs { m p with avail := (m p).avail + count } hs.1
    refine ⟨_, rfl, ?_, hw, fun heq hH => ?_, fun hne => ⟨hw.2, ?_, ?_, fun hH => ?_⟩⟩
    · rw [update_self, ← havail]
    · rw [update_self] at heq ⊢
      have := hsafe hH hzero
      rwa [if_pos heq] at this
    · rw [freedUpTo_start F count hk]
      exact ChildrenOk.congr hn (h.2.2 (by omega) (by omega)) (fun i hi _ =>
        update_of_ne (by omega) _ _)
    · rw [freedUpTo_start F count hk, update_self]
      exact h.2.1
    rw [update_self] at hne
    have hsub := hsafe hH hzero
    rw [if_neg hne] at hsub
    intro j _ hj hlt hlt'
    have hb := child_bounds p d j hj
    exact (hsub j hj hlt hlt').congr d (fun i hi _ => update_of_ne (by omega) _ _)

/-- Freeing a range of allocated blocks makes just these free. The hints stay
    right where no node with a low one becomes entirely free. -/
theorem blstFree_spec (d : Nat) : ∀ (m : Mem) (p n blk off count : Nat) (F : Nat → Bool),
    n ≤ radix d → 32 ∣ blk → 0 < count → off + count ≤ n → Shape m d p n → NodeOk H m d p n F →
    (∀ i, off ≤ i → i < off + count → F i = false) → (H → FreeSafe m d p off count) →
    ∃ m', blstFree d m p (blk + off) count blk = some m' ∧ Within m m' d p n ∧
      NodeOk H m' d p n (withRange F off count) := by
  induction d with
  | zero =>
    intro m p n blk off count F hn hblk hpos hin hs h hF _
    exact blstLeafFree_spec H m p n blk off count F hn hblk hpos hin hs h hF
  | succ d ih =>
    intro m p n blk off count F hn hblk hpos hin hs h hF hsafe
    have hR := radix_pos d
    have hcount := cnt_withRange n F off count hin hF
    have hbound := cnt_le n (withRange F off count)
    have hk0 : off / radix d * radix d ≤ off := Nat.div_mul_le_self off (radix d)
    have hk1 : off < (off / radix d + 1) * radix d :=
      Nat.lt_mul_of_div_lt (Nat.lt_succ_self _) hR
    have hk16 := lt_sixteen d n (off / radix d) hn (by omega)
    rcases free_enter hn hpos hin hk0 hs h (by omega) hsafe with
      ⟨m₁, hm₁, hav, hw, hfullhint, hstart⟩
    unfold blstFree
    simp only [hm₁]
    by_cases hfull : (m₁ p).avail = radix (d + 1)
    · rw [if_pos hfull]
      exact ⟨m₁, rfl, hw, nodeOk_full (hav.trans hcount.symm) hfull (hfullhint hfull)⟩
    rw [if_neg hfull, if_neg (by omega), Nat.add_sub_cancel_left]
    have hblk0 : blk + off = blk + max off (min (off / radix d * radix d) (off + count)) := by
      omega
    rcases freeLoop_spec d p n blk off count F hn hblk hpos hin hF ih
      (metaRadix - off / radix d) (off / radix d) m₁ (blk + off) count
      (Nat.sub_add_cancel (le_of_lt hk16)) hk1 hblk0 rfl (hstart hfull) with
      ⟨m', hloop, hav', hw', hfin⟩
    refine ⟨m', hloop, hw.trans hw', ?_⟩
    -- The loop has passed the whole range.
    have hall : ∀ i, i < n → withRange F off count i = freedUpTo F d off count 16 i := by
      intro i hi
      have hi16 : i < 16 * radix d := by
        rw [radix_succ, Nat.mul_comm] at hn
        omega
      rw [withRange, freedUpTo, decide_eq_true hi16, Bool.and_true]
    refine nodeOk_of_children (fun j hj => ?_) ?_ ?_
    · refine (hfin.children j hj).congr d (childLen_le d n j) (fun _ _ _ => rfl)
        (fun i hi => hall _ ?_)
      rw [childLen] at hi
      omega
    · rw [hav', hav, hcount]
    · exact hfin.hint.mono (fun i hi hG => hall i hi ▸ hG)

end FreeBSDKern.Swap
