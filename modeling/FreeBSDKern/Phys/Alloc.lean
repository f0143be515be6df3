import FreeBSDKern.Phys.Free

/-!
# Taking Blocks and Single Pages

A block is taken from its queue, and the parts of it that were not asked for go
back. `vm_phys_split_pages` keeps the lower end of the block, and
`vm_phys_unfree_page` keeps one page somewhere inside it. Both halve the block
again and again and put back one half each time, so one lemma about the two halves
of a block carries both.

## Main definitions

* `Taken`: Pages were free and no longer are.

## Theorems

* `Good.put_half`: One half of a block goes back, the other can be halved further.
* `vmPhysSplitPages_good`: The upper parts of a block become free.
* `vmPhysAllocPages_taken`: The block returned was free.
* `vmPhysUnfreePage_taken`: The page is taken if it was free.
-/

namespace FreeBSDKern.Phys

open Lib

variable {c : Conf} {st : Pages} {F : Set Nat} {m k n : Nat}

/-- The pages were free, and they are the only ones that no longer are. -/
def Taken (c : Conf) (st' : Pages) (F : Set Nat) (m n : Nat) : Prop :=
  Set.Ico m (m + n) ⊆ F ∧ Good c st' (F \ Set.Ico m (m + n))

/-- A block that left its queue. -/
theorem Good.rem_loose (fl : Freelist) (h : Good c st F) (hm : st.order m = k)
    (hk : k < c.nfreeorder) :
    Loose c (vmFreelistRem c st fl m k) (F \ Set.Ico m (m + 2 ^ k)) m k := by
  have hlt : st.order m < c.nfreeorder := by rw [hm]; exact hk
  have hdvd := h.ok.blocks.aligned m hlt
  have hin := h.ok.inside m hlt
  have hpool := h.ok.pools m hlt
  rw [hm] at hdvd hin hpool
  exact ⟨hk, hdvd, hin, Set.disjoint_sdiff_right, hpool⟩

section halves

section

variable (h : Loose c st F m (k + 1))
include h

theorem Loose.lower : Loose c st F m k := by
  have hpos := Nat.two_pow_pos k
  have hsub : Set.Ico m (m + 2 ^ k) ⊆ Set.Ico m (m + 2 ^ (k + 1)) :=
    Set.Ico_subset_Ico le_rfl (by omega)
  exact ⟨Nat.lt_of_succ_lt h.lt, Nat.dvd_trans (Nat.pow_dvd_pow 2 (Nat.le_succ k)) h.dvd,
    h.inSeg.sub le_rfl (by omega), h.disjoint.mono_left hsub,
    fun p hp => h.onePool p (hsub hp)⟩

theorem Loose.upper : Loose c st F (m + 2 ^ k) k ∧
    (segOf c (m + 2 ^ k)).freeQueues (st.pool (m + 2 ^ k)) = (segOf c m).freeQueues (st.pool m) := by
  have hpos := Nat.two_pow_pos k
  have hsub : Set.Ico (m + 2 ^ k) (m + 2 ^ k + 2 ^ k) ⊆ Set.Ico m (m + 2 ^ (k + 1)) :=
    Set.Ico_subset_Ico (Nat.le_add_right m _) (by omega)
  have hself := hsub (Set.left_mem_Ico.mpr (Nat.lt_add_of_pos_right hpos))
  refine ⟨⟨Nat.lt_of_succ_lt h.lt, Nat.dvd_add h.lower.dvd (Nat.dvd_refl _),
    h.inSeg.sub (Nat.le_add_right m _) (by omega), h.disjoint.mono_left hsub, fun p hp => ?_⟩, ?_⟩
  · rw [h.onePool p (hsub hp), h.onePool _ hself]
  · rw [h.inSeg.segOf_eq (Nat.le_add_right m _) hself.2, h.onePool _ hself]

/-- The buddy of the lower half is the upper half. -/
theorem Loose.buddy_lower : buddy m k = m + 2 ^ k := by
  rw [buddy_eq h.lower.dvd, if_pos h.dvd]

theorem Loose.buddy_upper : buddy (m + 2 ^ k) k = m := by
  rw [← h.buddy_lower, buddy_buddy]

end

/-- One half goes back to its queue, and the other half is a block still. -/
theorem Good.put_half {fl : Freelist} {a b : Nat} (tail : Bool) (h : Good c st F)
    (ha : Loose c st F a k) (hb : Loose c st F b k) (hbuddy : buddy a k = b)
    (hfar : Disjoint (Set.Ico a (a + 2 ^ k)) (Set.Ico b (b + 2 ^ k)))
    (hfl : fl = (segOf c a).freeQueues (st.pool a)) :
    Good c (vmFreelistAdd st fl a k tail) (F ∪ Set.Ico a (a + 2 ^ k)) ∧
      Loose c (vmFreelistAdd st fl a k tail) (F ∪ Set.Ico a (a + 2 ^ k)) b k := by
  have hbF : b ∉ F :=
    Set.disjoint_left.mp hb.disjoint (Set.left_mem_Ico.mpr (Nat.lt_add_of_pos_right (Nat.two_pow_pos k)))
  refine ⟨h.add ha hfl (fun _ _ => ?_), hb.lt, hb.dvd, hb.inSeg, ?_, hb.onePool⟩
  · rw [hbuddy, h.order_eq hbF]
    exact Nat.ne_of_gt ha.lt
  · exact Set.disjoint_union_right.mpr ⟨hb.disjoint, hfar.symm⟩

theorem Ico_halves_disjoint (m n : Nat) :
    Disjoint (Set.Ico m (m + n)) (Set.Ico (m + n) (m + n + n)) := by
  refine Set.disjoint_left.mpr (fun p hp hp' => ?_)
  have h₁ := hp.2
  have h₂ := hp'.1
  omega

end halves

section split

theorem vmPhysSplitPages_of_le (fl : Freelist) (m : Nat) {order oind : Nat} (hle : oind ≤ order)
    (st : Pages) : vmPhysSplitPages fl m order oind st = st := by
  cases oind with
  | zero => rfl
  | succ oind =>
    unfold vmPhysSplitPages
    exact if_neg (Nat.not_lt.mpr hle)

/-- All but the lower end of the block becomes free. -/
theorem vmPhysSplitPages_good (fl : Freelist) {order : Nat} : ∀ (oind : Nat) {st : Pages} {F : Set Nat},
    Good c st F → Loose c st F m oind → fl = (segOf c m).freeQueues (st.pool m) → order ≤ oind →
      Good c (vmPhysSplitPages fl m order oind st) (F ∪ Set.Ico (m + 2 ^ order) (m + 2 ^ oind)) ∧
        (vmPhysSplitPages fl m order oind st).pool = st.pool := by
  intro oind
  induction oind with
  | zero =>
    intro st F h hm hfl hle
    rw [Nat.le_zero.mp hle, Set.Ico_self, Set.union_empty]
    exact ⟨h, rfl⟩
  | succ oind ih =>
    intro st F h hm hfl hle
    by_cases hlt : order < oind + 1
    · have hpow : 2 ^ (oind + 1) = 2 ^ oind + 2 ^ oind := by rw [Nat.pow_succ, Nat.mul_two]
      unfold vmPhysSplitPages
      rw [if_pos hlt, one_shiftLeft]
      rcases h.put_half false hm.upper.1 hm.lower hm.buddy_upper
        (Ico_halves_disjoint m (2 ^ oind)).symm (hfl.trans hm.upper.2.symm) with ⟨hgood, hloose⟩
      rcases ih hgood hloose hfl (Nat.le_of_lt_succ hlt) with ⟨hrest, hpool⟩
      refine ⟨?_, hpool⟩
      have hpages : F ∪ Set.Ico (m + 2 ^ oind) (m + 2 ^ oind + 2 ^ oind) ∪
          Set.Ico (m + 2 ^ order) (m + 2 ^ oind) =
            F ∪ Set.Ico (m + 2 ^ order) (m + 2 ^ (oind + 1)) := by
        have hmono : 2 ^ order ≤ 2 ^ oind := Nat.pow_le_pow_right (by omega) (by omega)
        rw [Set.union_assoc, Set.union_comm (Set.Ico (m + 2 ^ oind) _),
          Set.Ico_union_Ico_eq_Ico (Nat.add_le_add_left hmono m) (Nat.le_add_right _ _), hpow,
          Nat.add_assoc]
      rw [hpages] at hrest
      exact hrest
    rw [vmPhysSplitPages_of_le fl m (not_lt.mp hlt), show order = oind + 1 by omega,
      Set.Ico_self, Set.union_empty]
    exact ⟨h, rfl⟩

/-- A block without its upper part, of which all but the lower end is put back. -/
theorem diff_union_upper {a b : Nat} (hab : a ≤ b) (hsub : Set.Ico m (m + b) ⊆ F) :
    F \ Set.Ico m (m + b) ∪ Set.Ico (m + a) (m + b) = F \ Set.Ico m (m + a) := by
  ext p
  constructor
  · rintro (⟨hF, hout⟩ | hin)
    · exact ⟨hF, fun hin => hout ⟨hin.1, lt_of_lt_of_le hin.2 (Nat.add_le_add_left hab m)⟩⟩
    · exact ⟨hsub ⟨le_trans (Nat.le_add_right m a) hin.1, hin.2⟩,
        fun hin' => Nat.not_lt.mpr hin.1 hin'.2⟩
  rintro ⟨hF, hout⟩
  by_cases hin : p ∈ Set.Ico m (m + b)
  · exact Or.inr ⟨not_lt.mp (fun hlt => hout ⟨hin.1, hlt⟩), hin.2⟩
  · exact Or.inl ⟨hF, hin⟩

end split

section allocPages

/-- The first page of a queue is a block of its order, pool and segment. -/
theorem Good.of_queue {fl : Freelist} (h : Good c st F) (hm : m ∈ st.queues (fl, k)) :
    st.order m = k ∧ k < c.nfreeorder ∧ fl = (segOf c m).freeQueues (st.pool m) := by
  rcases (h.ok.queued.mem (fl, k) m).mp hm with ⟨hlt, hkey⟩
  rw [Prod.mk.injEq] at hkey
  exact ⟨hkey.2, by rw [← hkey.2]; exact hlt, hkey.1.symm⟩

/-- A block is taken from a free list, if there is one that is large enough. -/
theorem vmPhysAllocDomainPages_spec (domain flind pool order : Nat) (h : Good c st F) :
    match vmPhysAllocDomainPages c st domain flind pool order with
    | (some m, st') => Taken c st' F m (2 ^ order)
    | (none, st') => st' = st := by
  have horder : ∀ oind ∈ List.range' order (c.nfreeorder - order), order ≤ oind := by
    intro oind hin
    rw [List.mem_range'_1] at hin
    exact hin.1
  unfold vmPhysAllocDomainPages
  dsimp only
  rcases hown : (List.range' order (c.nfreeorder - order)).findSome? (fun oind =>
    (st.queues (⟨domain, flind, pool⟩, oind)).head?.map (fun m => (m, oind))) with _ | ⟨m, oind⟩
  · dsimp only
    rcases halt : (List.range' order (c.nfreeorder - order)).reverse.findSome? (fun oind =>
      (List.range c.nfreepool).findSome? (fun pind =>
        (st.queues (⟨domain, flind, pind⟩, oind)).head?.map (fun m => (m, oind, pind)))) with
      _ | ⟨m, oind, pind⟩
    · rfl
    -- A block of another pool: its pages get the pool asked for.
    rcases List.exists_of_findSome?_eq_some halt with ⟨oind', hoind, hpools⟩
    rcases List.exists_of_findSome?_eq_some hpools with ⟨pind', _, hhead⟩
    rw [Option.map_eq_some_iff] at hhead
    rcases hhead with ⟨m', hm', heq⟩
    rw [Prod.mk.injEq, Prod.mk.injEq] at heq
    rcases heq with ⟨rfl, rfl, rfl⟩
    rcases h.of_queue (List.mem_of_head? hm') with ⟨hord, hlt, hfl⟩
    have hle := horder oind' (List.mem_reverse.mp hoind)
    have hsub := h.block_sub (by rw [hord]; exact hlt)
    rw [hord] at hsub
    have hrem := h.rem hord hlt hfl
    have hloose := h.rem_loose ⟨domain, flind, pind'⟩ hord hlt
    have hset := hrem.setPool pool hloose.disjoint
    have hself : m' ∈ Set.Ico m' (m' + 2 ^ oind') :=
      Set.left_mem_Ico.mpr (Nat.lt_add_of_pos_right (Nat.two_pow_pos _))
    have hloose' : Loose c (vmPhysSetPool pool
        (vmFreelistRem c st ⟨domain, flind, pind'⟩ m' oind') m' oind')
        (F \ Set.Ico m' (m' + 2 ^ oind')) m' oind' :=
      ⟨hloose.lt, hloose.dvd, hloose.inSeg, hloose.disjoint,
        fun p hp => by rw [setPool_of_mem hp, setPool_of_mem hself]⟩
    have hfl' : (⟨domain, flind, pool⟩ : Freelist) = (segOf c m').freeQueues pool := by
      rw [Seg.freeQueues, Freelist.mk.injEq] at hfl ⊢
      exact ⟨hfl.1, hfl.2.1, rfl⟩
    rcases vmPhysSplitPages_good ⟨domain, flind, pool⟩ oind' hset hloose'
      (by rw [setPool_of_mem hself]; exact hfl') hle with ⟨hgood, -⟩
    have hmono : 2 ^ order ≤ 2 ^ oind' := Nat.pow_le_pow_right (by omega) hle
    rw [diff_union_upper hmono hsub] at hgood
    exact ⟨Set.Subset.trans (Set.Ico_subset_Ico le_rfl (Nat.add_le_add_left hmono _)) hsub,
      hgood⟩
  · -- A block of the pool asked for.
    rcases List.exists_of_findSome?_eq_some hown with ⟨oind', hoind, hhead⟩
    rw [Option.map_eq_some_iff] at hhead
    rcases hhead with ⟨m', hm', heq⟩
    rw [Prod.mk.injEq] at heq
    rcases heq with ⟨rfl, rfl⟩
    rcases h.of_queue (List.mem_of_head? hm') with ⟨hord, hlt, hfl⟩
    have hle := horder oind' hoind
    have hsub := h.block_sub (by rw [hord]; exact hlt)
    rw [hord] at hsub
    rcases vmPhysSplitPages_good _ oind' (h.rem hord hlt hfl) (h.rem_loose _ hord hlt) hfl hle
      with ⟨hgood, -⟩
    have hmono : 2 ^ order ≤ 2 ^ oind' := Nat.pow_le_pow_right (by omega) hle
    rw [diff_union_upper hmono hsub] at hgood
    exact ⟨Set.Subset.trans (Set.Ico_subset_Ico le_rfl (Nat.add_le_add_left hmono _)) hsub,
      hgood⟩

/-- The same over the free lists of any sequence of domains. -/
theorem vmPhysAllocPages_spec {pool order : Nat} (h : Good c st F) : ∀ lists : List (Nat × Nat),
    match vmPhysAllocPages c st pool order lists with
    | (some m, st') => Taken c st' F m (2 ^ order)
    | (none, st') => st' = st := by
  intro lists
  induction lists with
  | nil => rfl
  | cons list rest ih =>
    have hfirst := vmPhysAllocDomainPages_spec list.1 list.2 pool order h
    unfold vmPhysAllocPages
    rcases hres : vmPhysAllocDomainPages c st list.1 list.2 pool order with ⟨_ | m, st'⟩
    · rw [hres] at hfirst
      dsimp only at hfirst ⊢
      rw [hfirst]
      exact ih
    · rw [hres] at hfirst
      exact hfirst

end allocPages

section unfree

/-- The search stops at the first order at which the page rounds down to a block, at
    the last order, or where it leaves the segment. -/
theorem unfreeSearch_spec {seg : Seg} (st : Pages) (m : Nat) (hseg : seg ∈ c.segs) : ∀ (gas : Nat) {k : Nat},
    k + gas + 1 = c.nfreeorder → (∀ i < k, st.order (floorTo m i) = c.nfreeorder) →
    match unfreeSearch c seg st m gas (floorTo m k) k with
    | none => ∃ j, (∀ i < j, st.order (floorTo m i) = c.nfreeorder) ∧
        toPhys (floorTo m j) < seg.start
    | some (mSet, j) => mSet = floorTo m j ∧ j < c.nfreeorder ∧
        (∀ i < j, st.order (floorTo m i) = c.nfreeorder) ∧
        (j + 1 = c.nfreeorder ∨ st.order mSet ≠ c.nfreeorder) := by
  intro gas
  induction gas with
  | zero =>
    intro k hgas hbelow
    exact ⟨rfl, by omega, hbelow, Or.inl (by omega)⟩
  | succ gas ih =>
    intro k hgas hbelow
    unfold unfreeSearch
    simp only [truncTo_toPhys]
    by_cases hnone : st.order (floorTo m k) = c.nfreeorder
    · rw [if_pos hnone]
      have hbelow' : ∀ i < k + 1, st.order (floorTo m i) = c.nfreeorder := by
        intro i hi
        rcases Nat.lt_succ_iff_lt_or_eq.mp hi with hi | rfl
        · exact hbelow i hi
        · exact hnone
      by_cases hstart : seg.start ≤ toPhys (floorTo m (k + 1))
      · rw [if_pos hstart, page_toPhys hseg hstart]
        exact ih (by omega) hbelow'
      · rw [if_neg hstart]
        exact ⟨k + 1, hbelow', not_le.mp hstart⟩
    · rw [if_neg hnone]
      exact ⟨rfl, by omega, hbelow, Or.inr hnone⟩

/-- The block that a free page lies in has an order that was not passed. -/
theorem Good.block_of_mem (h : Good c st F) (hm : m ∈ F) {j : Nat}
    (hbelow : ∀ i < j, st.order (floorTo m i) = c.nfreeorder) :
    ∃ k, j ≤ k ∧ k < c.nfreeorder ∧ st.order (floorTo m k) = k := by
  rw [← h.free] at hm
  rcases h.ok.blocks.covered_iff.mp hm with ⟨k, hk, hord⟩
  refine ⟨k, ?_, hk, hord⟩
  by_contra hlt
  have := hbelow k (not_le.mp hlt)
  omega

/-- The page is not free where the search ends without a block that contains it. -/
theorem Good.not_mem_of_search (h : Good c st F) {j : Nat}
    (hbelow : ∀ i < j, st.order (floorTo m i) = c.nfreeorder)
    (hend : j + 1 = c.nfreeorder ∨ st.order (floorTo m j) ≠ c.nfreeorder)
    (hno : st.order (floorTo m j) < j ∨ st.order (floorTo m j) = c.nfreeorder) : m ∉ F := by
  intro hm
  rcases h.block_of_mem hm hbelow with ⟨k, hjk, hk, hord⟩
  by_cases heq : k = j
  · subst heq
    omega
  -- The block found and the block that contains the page share a page.
  have hlt : st.order (floorTo m j) < c.nfreeorder := by
    have := h.ok.blocks.le (floorTo m j)
    omega
  have hshare : floorTo m j = floorTo m k := by
    refine h.ok.blocks.head_unique (p := floorTo m j) hlt (by rw [hord]; exact hk)
      le_rfl (Nat.lt_add_of_pos_right (Nat.two_pow_pos _)) ?_ ?_
    · rw [← floorTo_floorTo hjk]
      exact floorTo_le _ _
    · rw [hord, ← floorTo_floorTo hjk]
      exact lt_floorTo _ _
  rw [hshare, hord] at hno
  omega

/-- One half goes back whole, the other without the page. -/
theorem union_diff_page {A B : Set Nat} (hfar : Disjoint A B) (hm : m ∈ A) :
    F ∪ B ∪ A \ {m} = F ∪ (A ∪ B) \ {m} := by
  rw [Set.union_sdiff_distrib, Set.sdiff_singleton_eq_self (Set.disjoint_left.mp hfar hm),
    Set.union_assoc, Set.union_comm B]

/-- All pages of the block but one become free. -/
theorem unfreeExtract_good {fl : Freelist} {seg : Seg} (hseg : seg ∈ c.segs) : ∀ (order : Nat)
    {st : Pages} {F : Set Nat} {mSet : Nat}, Good c st F → Loose c st F mSet order →
      segOf c mSet = seg → fl = seg.freeQueues (st.pool mSet) →
      m ∈ Set.Ico mSet (mSet + 2 ^ order) → Good c (unfreeExtract seg fl m order st mSet)
        (F ∪ Set.Ico mSet (mSet + 2 ^ order) \ {m}) := by
  intro order
  induction order with
  | zero =>
    intro st F mSet h hloose hsegm hfl hm
    have hone : Set.Ico mSet (mSet + 2 ^ 0) \ {m} = ∅ := by
      ext p
      rw [Set.mem_sdiff, Set.mem_Ico, Set.mem_singleton_iff, Nat.pow_zero]
      have h₁ := hm.1
      have h₂ := hm.2
      rw [Nat.pow_zero] at h₂
      exact ⟨fun hp => absurd (by omega) hp.2, fun hp => absurd hp (Set.notMem_empty p)⟩
    rw [hone, Set.union_empty]
    exact h
  | succ order ih =>
    intro st F mSet h hloose hsegm hfl hm
    have hpow : 2 ^ (order + 1) = 2 ^ order + 2 ^ order := by rw [Nat.pow_succ, Nat.mul_two]
    have hupper := hloose.upper
    have hsegu : segOf c (mSet + 2 ^ order) = seg := by
      rw [← hsegm]
      refine hloose.inSeg.segOf_eq (Nat.le_add_right _ _) ?_
      have := Nat.two_pow_pos order
      omega
    have hstart : seg.start ≤ toPhys (mSet + 2 ^ order) := by
      have := hupper.1.holds.2.2.1
      rwa [hsegu] at this
    have hfar := Ico_halves_disjoint mSet (2 ^ order)
    have hsplit : Set.Ico mSet (mSet + 2 ^ (order + 1)) =
        Set.Ico mSet (mSet + 2 ^ order) ∪ Set.Ico (mSet + 2 ^ order) (mSet + 2 ^ order + 2 ^ order) := by
      rw [Set.Ico_union_Ico_eq_Ico (Nat.le_add_right _ _) (Nat.le_add_right _ _), hpow,
        Nat.add_assoc]
    unfold unfreeExtract
    simp only [toPhys_xor, hloose.buddy_lower, page_toPhys hseg hstart, toPhys_lt]
    split
    case isTrue hlow =>
      have hin : m ∈ Set.Ico mSet (mSet + 2 ^ order) := ⟨hm.1, hlow⟩
      rcases h.put_half false hupper.1 hloose.lower hloose.buddy_upper hfar.symm
        (hfl.trans (by rw [← hsegm]; exact hupper.2.symm)) with ⟨hgood, hrest⟩
      have hres := ih hgood hrest hsegm hfl hin
      rwa [union_diff_page hfar hin, ← hsplit] at hres
    case isFalse hhigh =>
    have hin : m ∈ Set.Ico (mSet + 2 ^ order) (mSet + 2 ^ order + 2 ^ order) := by
      have := hm.2
      exact ⟨not_lt.mp hhigh, by omega⟩
    rcases h.put_half false hloose.lower hupper.1 hloose.buddy_lower hfar
      (hfl.trans (by rw [hsegm])) with ⟨hgood, hrest⟩
    have hself : mSet + 2 ^ order ∈ Set.Ico mSet (mSet + 2 ^ (order + 1)) := by
      rw [hsplit]
      exact Or.inr (Set.left_mem_Ico.mpr (Nat.lt_add_of_pos_right (Nat.two_pow_pos _)))
    have hpool : st.pool (mSet + 2 ^ order) = st.pool mSet := hloose.onePool _ hself
    have hres := ih hgood hrest hsegu (hfl.trans (by rw [add_pool, hpool])) hin
    rwa [union_diff_page hfar.symm hin, Set.union_comm (Set.Ico (mSet + 2 ^ order) _), ← hsplit]
      at hres

/-- The page is taken if it was free, and nothing happens otherwise. -/
theorem vmPhysUnfreePage_spec (h : Good c st F) (hin : InSeg c m 1) :
    match vmPhysUnfreePage c st m with
    | (true, st') => Taken c st' F m 1
    | (false, st') => st' = st ∧ m ∉ F := by
  have hpos := c.order_pos
  have hholds := hin.holds le_rfl (Nat.lt_succ_self m)
  have hsearch := unfreeSearch_spec st m hholds.1 (c.nfreeorder - 1) (k := 0)
    (by omega) (fun i hi => absurd hi (Nat.not_lt_zero i))
  rw [floorTo_zero] at hsearch
  unfold vmPhysUnfreePage
  dsimp only
  rcases hres : unfreeSearch c (segOf c m) st m (c.nfreeorder - 1) m 0 with _ | ⟨mSet, j⟩
  · rw [hres] at hsearch
    rcases hsearch with ⟨j, hbelow, hout⟩
    refine ⟨rfl, fun hm => ?_⟩
    -- The block would start before the segment of the page.
    rcases h.block_of_mem hm hbelow with ⟨k, hjk, hk, hord⟩
    have hblock := h.ok.inside (floorTo m k) (by rw [hord]; exact hk)
    rw [hord] at hblock
    have hspan := hblock.holds (floorTo_le m k) (lt_floorTo m k)
    have hle : toPhys (floorTo m k) ≤ toPhys (floorTo m j) := by
      rw [toPhys_le, ← floorTo_floorTo hjk]
      exact floorTo_le _ _
    exact absurd (le_trans hspan.2.2.1 hle) (not_le.mpr hout)
  rw [hres] at hsearch
  rcases hsearch with ⟨rfl, hj, hbelow, hend⟩
  dsimp only
  by_cases hfound : st.order (floorTo m j) < j ∨ st.order (floorTo m j) = c.nfreeorder
  · rw [if_pos hfound]
    exact ⟨rfl, h.not_mem_of_search hbelow hend hfound⟩
  rw [if_neg hfound]
  rw [not_or, Nat.not_lt] at hfound
  have hlt : st.order (floorTo m j) < c.nfreeorder :=
    lt_of_le_of_ne (h.ok.blocks.le _) hfound.2
  have hmem : m ∈ Set.Ico (floorTo m j) (floorTo m j + 2 ^ st.order (floorTo m j)) := by
    refine ⟨floorTo_le m j, lt_of_lt_of_le (lt_floorTo m j) ?_⟩
    exact Nat.add_le_add_left (Nat.pow_le_pow_right (by omega) hfound.1) _
  have hsub := h.block_sub hlt
  have hseg : segOf c (floorTo m j) = segOf c m :=
    ((h.ok.inside _ hlt).segOf_eq hmem.1 hmem.2).symm
  have hgood := unfreeExtract_good hholds.1 _ (h.rem rfl hlt (by rw [hseg]))
    (h.rem_loose _ rfl hlt) hseg rfl hmem
  have hone : Set.Ico m (m + 1) = {m} := by
    ext p
    rw [Set.mem_Ico, Set.mem_singleton_iff]
    omega
  show Taken c _ F m 1
  rw [Taken, hone, Set.singleton_subset_iff]
  refine ⟨hsub hmem, ?_⟩
  rwa [Set.sdiff_union_sdiff_cancel hsub (Set.singleton_subset_iff.mpr hmem)] at hgood

end unfree

end FreeBSDKern.Phys
