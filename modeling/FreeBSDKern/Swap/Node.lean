import FreeBSDKern.Swap.Leaf

/-!
# Nodes of the Block List

What a node of the tree stands for. `NodeOk m d p n F` says of the node at `p`,
of height `d`, that the first `n` blocks under it exist and that the tree reads
there as `F`; a collapsed node says so by its count alone, any other through its
subtrees. `Shape` is the part that also holds of stale nodes: hints that are no
terminators where a subtree exists, and a terminator where the first one is
missing.

Everything under a node lies in one stretch of the array, behind the node and
before the next one. An operation on a subtree leaves the rest of the array
alone, so what is known of its neighbours and of the node above carries over;
`Shape.congr` and `NodeOk.congr` say that only the stretch matters.

Whether hints are to be trusted is a parameter `H` of the invariant. Without
hints it is about the free blocks alone; with them it also says that no hint is
below the longest run of free blocks in a leaf.

## Main definitions

* `Shape`: What holds of every node, stale or not.
* `HasRun`: A run of free blocks inside one leaf.
* `NodeOk`: What a live node stands for.
* `ChildrenOk`: The same for the subtrees of a node.

## Theorems

* `child_bounds`, `child_disjoint`: The layout of the subtrees.
* `hasRun_child`: A run lies in one subtree.
* `isFree_of_nodeOk`: A live node reads as it should.
* `initSub_spec`: What writing the subtrees afresh does to the array.
-/

namespace FreeBSDKern.Swap

open Function

theorem radix_succ (d : Nat) : radix (d + 1) = radix d * 16 := rfl

theorem radix_pos (d : Nat) : 0 < radix d := by
  induction d with
  | zero => decide
  | succ d ih => rw [radix_succ]; omega

theorem radix_ge (d : Nat) : 32 ≤ radix d := by
  induction d with
  | zero => decide
  | succ d ih => rw [radix_succ]; omega

theorem dvd_radix (d : Nat) : 32 ∣ radix d := by
  induction d with
  | zero => exact Nat.dvd_refl 32
  | succ d ih => exact Nat.dvd_mul_right_of_dvd ih 16

theorem skip_div (d : Nat) : skip (d + 1) / metaRadix = skip d + 1 :=
  Nat.mul_div_cancel (skip d + 1) (by decide)

theorem child_eq (p d k : Nat) : child p d k = p + 1 + k * (skip d + 1) := by
  rw [child, skip_div, Nat.add_assoc]

/-- A subtree lies behind its node and before the next one. -/
theorem child_bounds (p d k : Nat) (hk : k < 16) :
    p < child p d k ∧ child p d k + skip d ≤ p + skip (d + 1) := by
  have hmul : (k + 1) * (skip d + 1) ≤ 16 * (skip d + 1) := Nat.mul_le_mul_right _ (by omega)
  rw [child_eq]
  simp only [skip, metaRadix]
  rw [Nat.add_mul] at hmul
  omega

/-- Subtrees do not overlap. -/
theorem child_disjoint (p d j k : Nat) (hjk : j < k) : child p d j + skip d < child p d k := by
  have hmul : (j + 1) * (skip d + 1) ≤ k * (skip d + 1) := Nat.mul_le_mul_right _ hjk
  rw [child_eq, child_eq]
  rw [Nat.add_mul] at hmul
  omega

/-- The blocks of a subtree that exist. -/
def childLen (d n k : Nat) : Nat := min (radix d) (n - k * radix d)

theorem childLen_pos (d n k : Nat) (h : k * radix d < n) : 0 < childLen d n k := by
  have := radix_pos d
  rw [childLen]
  omega

theorem childLen_le (d n k : Nat) : childLen d n k ≤ radix d := Nat.min_le_left _ _

/-- A node of which `n` blocks exist has no more than sixteen subtrees. -/
theorem lt_sixteen (d n k : Nat) (hn : n ≤ radix (d + 1)) (h : k * radix d < n) : k < 16 := by
  by_contra hc
  have hmul : 16 * radix d ≤ k * radix d := Nat.mul_le_mul_right _ (by omega)
  rw [radix_succ] at hn
  omega

/-- What holds of every node, stale or not. The place behind the last subtree
    that exists is a terminator. -/
def Shape (m : Mem) : Nat → Nat → Nat → Prop
  | 0, p, _ => 0 ≤ (m p).bighint
  | d + 1, p, n => 0 ≤ (m p).bighint ∧
      (∀ k, k * radix d < n → Shape m d (child p d k) (childLen d n k)) ∧
      ∀ k, k < 15 → k * radix d < n → n ≤ (k + 1) * radix d → (m (child p d (k + 1))).bighint = -1

/-- A run of free blocks inside one leaf. -/
def HasRun (n : Nat) (F : Nat → Bool) (c : Nat) : Prop :=
  ∃ b, b % 32 + c ≤ 32 ∧ b + c ≤ n ∧ ∀ i, b ≤ i → i < b + c → F i = true

/-- The hint of a node is not below any run. -/
def HintOk (H : Prop) (bighint : Int) (n : Nat) (F : Nat → Bool) : Prop :=
  H → ∀ c, 0 < c → HasRun n F c → (c : Int) ≤ bighint

/-- The first `n` blocks under a live node exist, and the tree reads there as
    `F`. -/
def NodeOk (H : Prop) (m : Mem) : Nat → Nat → Nat → (Nat → Bool) → Prop
  | 0, p, n, F => (∀ i, i < 32 → (m p).bitmap.getLsbD i = (decide (i < n) && F i)) ∧
      HintOk H (m p).bighint n F
  | d + 1, p, n, F => (m p).avail = cnt n F ∧ HintOk H (m p).bighint n F ∧
      (0 < (m p).avail → (m p).avail < radix (d + 1) → ∀ k, k * radix d < n →
        NodeOk H m d (child p d k) (childLen d n k) (fun i => F (k * radix d + i)))

/-- The same for the subtrees of a node. -/
def ChildrenOk (H : Prop) (m : Mem) (d p n : Nat) (F : Nat → Bool) : Prop :=
  ∀ k, k * radix d < n → NodeOk H m d (child p d k) (childLen d n k) (fun i => F (k * radix d + i))

variable {n c d p : Nat} {F : Nat → Bool} {H : Prop} {m : Mem}

theorem HasRun.mono {G : Nat → Bool} (h : HasRun n F c) (hFG : ∀ i, i < n → F i = true → G i = true)
    : HasRun n G c := by
  rcases h with ⟨b, hleaf, hn, hrun⟩
  exact ⟨b, hleaf, hn, fun i hi hlt => hFG i (by omega) (hrun i hi hlt)⟩

theorem HasRun.shorter {c' : Nat} (h : HasRun n F c) (hle : c' ≤ c) : HasRun n F c' := by
  rcases h with ⟨b, hleaf, hn, hrun⟩
  exact ⟨b, by omega, by omega, fun i hi hlt => hrun i hi (by omega)⟩

theorem HasRun.le (h : HasRun n F c) : c ≤ 32 := by
  rcases h with ⟨b, hleaf, -⟩
  omega

/-- A run is no longer than the number of free blocks. -/
theorem HasRun.le_cnt (h : HasRun n F c) : c ≤ cnt n F := by
  rcases h with ⟨b, -, hn, hrun⟩
  have hsame : cnt n (fun i => F i && inRange b c i) = cnt n (inRange b c) := by
    refine cnt_congr n _ _ (fun i _ => ?_)
    cases hin : inRange b c i with
    | false => exact Bool.and_false _
    | true =>
      rw [inRange, decide_eq_true_eq] at hin
      rw [hrun i hin.1 hin.2]
      rfl
  have hsplit := cnt_split n F (inRange b c)
  rw [hsame, cnt_inRange n b c hn] at hsplit
  omega

theorem HintOk.mono {hint : Int} {G : Nat → Bool} (h : HintOk H hint n F)
    (hGF : ∀ i, i < n → G i = true → F i = true) : HintOk H hint n G :=
  fun hH c hc hrun => h hH c hc (hrun.mono hGF)

theorem hasRun_child (d n : Nat) (F : Nat → Bool) (c : Nat) (hc : 0 < c) (h : HasRun n F c) :
    ∃ k, k * radix d < n ∧ HasRun (childLen d n k) (fun i => F (k * radix d + i)) c := by
  rcases h with ⟨b, hleaf, hn, hrun⟩
  have hR := radix_pos d
  rcases dvd_radix d with ⟨q, hq⟩
  -- The place of the run in its subtree, and the leaf it lies in.
  have hdiv := Nat.div_add_mod b (radix d)
  have hlt := Nat.mod_lt b hR
  have hmod : b % radix d % 32 = b % 32 := Nat.mod_mod_of_dvd b (dvd_radix d)
  have hcomm : b / radix d * radix d = radix d * (b / radix d) := Nat.mul_comm _ _
  have hfit : b % radix d + c ≤ radix d := by omega
  refine ⟨b / radix d, by omega, b % radix d, by omega, ?_, fun i hi hi' => ?_⟩
  · rw [childLen]
    omega
  · exact hrun _ (by omega) (by omega)

/-- Only the stretch of a node matters to its shape. -/
theorem Shape.congr (d : Nat) : ∀ {m m' : Mem} {p n : Nat}, n ≤ radix d → Shape m d p n →
    (∀ i, p ≤ i → i ≤ p + skip d → m' i = m i) → Shape m' d p n := by
  induction d with
  | zero =>
    intro m m' p n _ h hsame
    rw [Shape, hsame p le_rfl (Nat.le_add_right p _)]
    exact h
  | succ d ih =>
    intro m m' p n hn h hsame
    rcases h with ⟨hhint, hsub, hterm⟩
    refine ⟨?_, fun k hk => ?_, fun k hk hin hout => ?_⟩
    · rw [hsame p le_rfl (Nat.le_add_right p _)]
      exact hhint
    · have hb := child_bounds p d k (lt_sixteen d n k hn hk)
      exact ih (childLen_le d n k) (hsub k hk) (fun i hi hi' => hsame i (by omega) (by omega))
    have hb := child_bounds p d (k + 1) (by omega)
    rw [hsame _ (by omega) (by omega)]
    exact hterm k hk hin hout

/-- A node may get a new hint that is no terminator. -/
theorem Shape.rehint {m' : Mem} (hn : n ≤ radix d) (h : Shape m d p n) (hhint : 0 ≤ (m' p).bighint)
    (hsame : ∀ i, p < i → i ≤ p + skip d → m' i = m i) : Shape m' d p n := by
  cases d with
  | zero => exact hhint
  | succ d =>
    refine ⟨hhint, fun k hk => ?_, fun k hk hin hout => ?_⟩
    · have hb := child_bounds p d k (lt_sixteen d n k hn hk)
      exact (h.2.1 k hk).congr d (childLen_le d n k) (fun i hi hi' =>
        hsame i (by omega) (by omega))
    have hb := child_bounds p d (k + 1) (by omega)
    rw [hsame _ (by omega) (by omega)]
    exact h.2.2 k hk hin hout

theorem Shape.hint (h : Shape m d p n) : 0 ≤ (m p).bighint := by
  cases d with
  | zero => exact h
  | succ d => exact h.1

/-- Only the stretch of a node matters to what it stands for, and only the
    blocks that exist. -/
theorem NodeOk.congr (d : Nat) : ∀ {m m' : Mem} {p n : Nat} {F G : Nat → Bool},
    n ≤ radix d → NodeOk H m d p n F → (∀ i, p ≤ i → i ≤ p + skip d → m' i = m i) →
    (∀ i, i < n → G i = F i) → NodeOk H m' d p n G := by
  induction d with
  | zero =>
    intro m m' p n F G hn h hsame hFG
    rw [NodeOk, hsame p le_rfl (Nat.le_add_right p _)]
    refine ⟨fun i hi => ?_, h.2.mono (fun i hi hG => hFG i hi ▸ hG)⟩
    rw [h.1 i hi]
    by_cases hlt : i < n
    · rw [hFG i hlt]
    · rw [decide_eq_false hlt, Bool.false_and, Bool.false_and]
  | succ d ih =>
    intro m m' p n F G hn h hsame hFG
    rcases h with ⟨havail, hhint, hsub⟩
    rw [NodeOk, hsame p le_rfl (Nat.le_add_right p _)]
    refine ⟨havail.trans (cnt_congr n F G (fun i hi => (hFG i hi).symm)),
      hhint.mono (fun i hi hG => hFG i hi ▸ hG), fun hpos hlt k hk => ?_⟩
    have hb := child_bounds p d k (lt_sixteen d n k hn hk)
    refine ih (childLen_le d n k) (hsub hpos hlt k hk) (fun i hi hi' =>
      hsame i (by omega) (by omega)) (fun i hi => hFG _ ?_)
    rw [childLen] at hi
    omega

theorem isFree_of_nodeOk (d : Nat) : ∀ {m : Mem} {p n : Nat} {F : Nat → Bool},
    n ≤ radix d → NodeOk H m d p n F → ∀ off, off < n → isFree m d p off = F off := by
  induction d with
  | zero =>
    intro m p n F hn h off hoff
    have hn' : n ≤ 32 := hn
    rw [isFree, h.1 off (by omega), decide_eq_true hoff, Bool.true_and]
  | succ d ih =>
    intro m p n F hn h off hoff
    rcases h with ⟨havail, -, hsub⟩
    have hle := cnt_le n F
    rw [isFree]
    by_cases hzero : (m p).avail = 0
    · rw [if_pos hzero, cnt_eq_zero n F (by omega) off hoff]
    rw [if_neg hzero]
    by_cases hfull : (m p).avail = radix (d + 1)
    · rw [if_pos hfull, cnt_eq_bound n F (by omega) off hoff]
    rw [if_neg hfull]
    have hR := radix_pos d
    have hdiv := Nat.div_add_mod off (radix d)
    have hlt := Nat.mod_lt off hR
    have hcomm : off / radix d * radix d = radix d * (off / radix d) := Nat.mul_comm _ _
    have hk : off / radix d * radix d < n := by omega
    rw [ih (childLen_le d n _) (hsub (by omega) (by omega) _ hk) (off % radix d) (by
      rw [childLen]; omega)]
    congr 1
    omega

/-- Node and subtrees together. -/
theorem nodeOk_of_children (hc : ChildrenOk H m d p n F) (havail : (m p).avail = cnt n F)
    (hhint : HintOk H (m p).bighint n F) : NodeOk H m (d + 1) p n F :=
  ⟨havail, hhint, fun _ _ => hc⟩

theorem ChildrenOk.congr {m' : Mem} (hn : n ≤ radix (d + 1)) (h : ChildrenOk H m d p n F)
    (hsame : ∀ i, p < i → i ≤ p + skip (d + 1) → m' i = m i) : ChildrenOk H m' d p n F := by
  intro k hk
  have hb := child_bounds p d k (lt_sixteen d n k hn hk)
  exact (h k hk).congr d (childLen_le d n k) (fun i hi hi' => hsame i (by omega) (by omega))
    (fun _ _ => rfl)

theorem nodeOk_allFree (H : Prop) (m : Mem) (d p : Nat) (node : Blmeta)
    (h : m p = allFree d node) : NodeOk H m d p (radix d) (fun _ => true) := by
  have hrun : ∀ hint : Int, 32 ≤ hint → HintOk H hint (radix d) (fun _ => true) := by
    intro hint hle _ c _ hc
    have := hc.le
    omega
  cases d with
  | zero =>
    rw [NodeOk, h]
    refine ⟨fun i hi => ?_, hrun _ (Int.le_refl _)⟩
    have hi' : i < radix 0 := hi
    simp only [allFree, if_true, BitVec.getLsbD_allOnes, hi, hi', decide_true, Bool.and_self]
  | succ d =>
    rw [NodeOk, h]
    simp only [allFree, Nat.succ_ne_zero, if_false]
    refine ⟨(cnt_const_true _).symm, hrun _ ?_, fun _ hlt => absurd hlt (lt_irrefl _)⟩
    have := radix_ge (d + 1)
    omega

theorem nodeOk_allAllocated (H : Prop) (m : Mem) (d p n : Nat) (node : Blmeta)
    (h : m p = allAllocated d node) : NodeOk H m d p n (fun _ => false) := by
  have hrun : ∀ hint : Int, HintOk H hint n (fun _ => false) := by
    rintro hint _ c hc ⟨b, -, -, hrun⟩
    exact absurd (hrun b le_rfl (by omega)) Bool.false_ne_true
  cases d with
  | zero =>
    rw [NodeOk, h]
    refine ⟨fun i hi => ?_, hrun _⟩
    simp [allAllocated]
  | succ d =>
    rw [NodeOk, h]
    simp only [allAllocated, Nat.succ_ne_zero, if_false]
    exact ⟨(cnt_const_false n).symm, hrun _, fun hpos => absurd hpos (lt_irrefl _)⟩

/-- Writing the subtrees afresh reaches those that exist, up to the
    terminator. -/
theorem initSub_loop (node : Blmeta → Blmeta) (d p n : Nat) (hn : n ≤ radix (d + 1)) (fuel : Nat) :
    ∀ (k : Nat) (m : Mem), fuel + k = 16 → (k = 0 ∨ (k - 1) * radix d < n) → 0 < n →
      (∀ j, k ≤ j → j * radix d < n → (m (child p d j)).bighint ≠ -1) →
      (∀ j, j < 15 → j * radix d < n → n ≤ (j + 1) * radix d →
        (m (child p d (j + 1))).bighint = -1) →
      (∀ j, k ≤ j → j * radix d < n →
        initSub node d p fuel k m (child p d j) = node (m (child p d j))) ∧
      ∀ i, (∀ j, k ≤ j → j * radix d < n → i ≠ child p d j) → initSub node d p fuel k m i = m i := by
  induction fuel with
  | zero =>
    intro k m hk _ _ _ _
    refine ⟨fun j hj hlt => ?_, fun i _ => rfl⟩
    have := lt_sixteen d n j hn hlt
    omega
  | succ fuel ih =>
    intro k m hk hprev hpos hlive hterm
    unfold initSub
    simp only
    by_cases hend : (m (child p d k)).bighint = -1
    · rw [if_pos hend]
      refine ⟨fun j hj hlt => ?_, fun i _ => rfl⟩
      -- Where the loop stops nothing exists any more.
      have hkj : k * radix d ≤ j * radix d := Nat.mul_le_mul_right _ hj
      exact absurd hend (hlive k le_rfl (by omega))
    rw [if_neg hend]
    have hexists : k * radix d < n := by
      by_contra hc
      rcases hprev with hzero | hlt
      · rw [hzero] at hc
        omega
      by_cases hk0 : k = 0
      · rw [hk0] at hc
        omega
      have ht := hterm (k - 1) (by omega) hlt (by rw [Nat.sub_add_cancel (by omega)]; omega)
      rw [Nat.sub_add_cancel (by omega)] at ht
      exact hend ht
    have hother : ∀ j, k < j → child p d j ≠ child p d k := fun j hj heq => by
      have := child_disjoint p d k j hj
      omega
    rcases ih (k + 1) (update m (child p d k) (node (m (child p d k)))) (by omega)
      (Or.inr (by rwa [Nat.add_sub_cancel])) hpos
      (fun j hj hlt => by
        rw [update_of_ne (hother j (by omega))]
        exact hlive j (by omega) hlt)
      (fun j hj hlt hle => by
        have hjk : k < j + 1 := by
          by_contra hc
          have : (j + 1) * radix d ≤ k * radix d := Nat.mul_le_mul_right _ (by omega)
          omega
        rw [update_of_ne (hother _ hjk)]
        exact hterm j hj hlt hle) with ⟨hset, hkeep⟩
    refine ⟨fun j hj hlt => ?_, fun i hi => ?_⟩
    · by_cases heq : j = k
      · rw [heq, hkeep _ (fun j' hj' _ heq' => hother j' (by omega) heq'.symm), update_self]
      · rw [hset j (by omega) hlt, update_of_ne (hother j (by omega))]
    · rw [hkeep i (fun j hj hlt => hi j (by omega) hlt),
        update_of_ne (hi k le_rfl hexists)]

theorem initSub_spec (node : Blmeta → Blmeta) (m : Mem) (d p n : Nat) (hn : n ≤ radix (d + 1))
    (hpos : 0 < n) (h : Shape m (d + 1) p n) : (∀ k, k * radix d < n →
      initSub node d p metaRadix 0 m (child p d k) = node (m (child p d k))) ∧
    ∀ i, (∀ k, k * radix d < n → i ≠ child p d k) → initSub node d p metaRadix 0 m i = m i := by
  rcases initSub_loop node d p n hn metaRadix 0 m rfl (Or.inl rfl) hpos
    (fun j _ hlt heq => by
      have := (h.2.1 j hlt).hint
      omega) h.2.2 with ⟨hset, hkeep⟩
  exact ⟨fun k hk => hset k zero_le hk, fun i hi => hkeep i (fun k _ hk => hi k hk)⟩

/-- Freshly written subtrees: nothing outside the stretch has changed, nor the
    node itself, and the shape is kept. -/
theorem initSub_shape (node : Blmeta → Blmeta) (m : Mem) (d p n : Nat) (hn : n ≤ radix (d + 1))
    (hpos : 0 < n) (h : Shape m (d + 1) p n) (hnode : ∀ b, 0 ≤ (node b).bighint) :
    initSub node d p metaRadix 0 m p = m p ∧
    (∀ i, ¬ (p ≤ i ∧ i ≤ p + skip (d + 1)) → initSub node d p metaRadix 0 m i = m i) ∧
    Shape (initSub node d p metaRadix 0 m) (d + 1) p n := by
  rcases initSub_spec node m d p n hn hpos h with ⟨hset, hkeep⟩
  have hself : initSub node d p metaRadix 0 m p = m p := hkeep p (fun k hk => by
    have := child_bounds p d k (lt_sixteen d n k hn hk)
    omega)
  refine ⟨hself, fun i hi => hkeep i (fun k hk => ?_), ?_, fun k hk => ?_, fun k hk hlt hle => ?_⟩
  · have := child_bounds p d k (lt_sixteen d n k hn hk)
    omega
  · rw [hself]
    exact h.1
  · refine (h.2.1 k hk).rehint (childLen_le d n k) ?_ (fun i hi hi' => hkeep i (fun j hj heq => ?_))
    · rw [hset k hk]
      exact hnode _
    rcases Nat.lt_trichotomy j k with hjk | rfl | hkj
    · have := child_disjoint p d j k hjk
      omega
    · omega
    · have := child_disjoint p d k j hkj
      omega
  rw [hkeep _ (fun j hj heq => ?_)]
  · exact h.2.2 k hk hlt hle
  rcases Nat.lt_trichotomy j (k + 1) with hjk | rfl | hkj
  · have := child_disjoint p d j (k + 1) hjk
    omega
  · omega
  · have := child_disjoint p d (k + 1) j hkj
    omega

end FreeBSDKern.Swap
