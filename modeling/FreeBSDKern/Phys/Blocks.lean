import FreeBSDKern.Lib.Buckets
import FreeBSDKern.Phys.Pages

/-!
# Free Blocks

The invariant of the allocator, and what the three elementary steps do to it: a
block enters its queue, a block leaves its queue, and pages that are not free
change their pool.

Every operation is a sequence of these steps, and `Good` is what holds before and
after each of them. It says the state is well formed, that no two free blocks
could be joined, and which pages are free, so that what an operation does to the
free pages is read off from the steps it is made of.

## Main definitions

* `InSeg`, `Same`: A run of pages lies in one segment, two pages do.
* `Ok`: The blocks are aligned and apart, on their queues, and of one pool each.
* `Good`: The same, with no two blocks to join and the set of free pages.
* `Loose`: A block that may enter its queue.

## Theorems

* `Good.rem`, `Good.add`, `Good.setPool`: The elementary steps.
-/

namespace FreeBSDKern.Phys

open Lib Function

variable {c : Conf} {st : Pages} {F : Set Nat} {m k : Nat}

section address

theorem toPhys_eq (m : Nat) : toPhys m = m * 2 ^ pageShift := Nat.shiftLeft_eq m pageShift

variable {a b n p pool : Nat} {s : Seg} {fl : Freelist}

theorem toPhys_le : toPhys a ≤ toPhys b ↔ a ≤ b := by
  rw [toPhys_eq, toPhys_eq]
  exact Nat.mul_le_mul_right_iff (Nat.two_pow_pos pageShift)

theorem toPhys_lt : toPhys a < toPhys b ↔ a < b := by
  rw [← not_le, toPhys_le, not_le]

/-- Flipping a bit of the address is flipping one of the page number. -/
theorem toPhys_xor (m k : Nat) : toPhys m ^^^ (1 <<< (pageShift + k)) = toPhys (buddy m k) := by
  rw [toPhys, toPhys, buddy, Nat.shiftLeft_xor_distrib, Nat.shiftLeft_eq 1, Nat.one_mul,
    Nat.shiftLeft_eq (2 ^ k), ← Nat.pow_add, Nat.add_comm]

theorem truncTo_toPhys (m k : Nat) : truncTo (toPhys m) (pageShift + k) = toPhys (floorTo m k) := by
  have hshift : toPhys m >>> (pageShift + k) = m / 2 ^ k := by
    rw [Nat.shiftRight_add, toPhys, Nat.shiftLeft_shiftRight, Nat.shiftRight_eq_div_pow]
  rw [truncTo, hshift, toPhys_eq, floorTo, Nat.shiftLeft_eq, Nat.pow_add, Nat.mul_comm (2 ^ pageShift),
    Nat.mul_assoc]

end address

/-- The page is one of the segment. -/
def Seg.Holds (s : Seg) (m : Nat) : Prop := s.start ≤ toPhys m ∧ toPhys m < s.stop

/-- A run of pages lies in one segment. -/
def InSeg (c : Conf) (m n : Nat) : Prop :=
  ∃ s ∈ c.segs, s.start ≤ toPhys m ∧ toPhys (m + n) ≤ s.stop

/-- Two pages are in the same segment. -/
def Same (c : Conf) (a b : Nat) : Prop := ∃ s ∈ c.segs, s.Holds a ∧ s.Holds b

theorem Same.symm (h : Same c a b) : Same c b a := by
  rcases h with ⟨s, hs, ha, hb⟩
  exact ⟨s, hs, hb, ha⟩

theorem seg_unique {t : Seg} (hs : s ∈ c.segs) (ht : t ∈ c.segs) (hsm : s.Holds m) (htm : t.Holds m)
    : s = t := by
  by_contra hne
  have hfar : s.stop ≤ t.start ∨ t.stop ≤ s.start := by
    rcases List.append_of_mem hs with ⟨pre, post, hsplit⟩
    have hsorted := c.seg_sorted
    rw [hsplit, List.pairwise_append, List.pairwise_cons] at hsorted
    rw [hsplit, List.mem_append, List.mem_cons] at ht
    rcases ht with ht | rfl | ht
    · exact Or.inr (hsorted.2.2 t ht s List.mem_cons_self)
    · exact absurd rfl hne
    · exact Or.inl (hsorted.2.1.1 t ht)
  have h₁ := hsm.1
  have h₂ := hsm.2
  have h₃ := htm.1
  have h₄ := htm.2
  omega

theorem segOf_eq (hs : s ∈ c.segs) (hm : s.Holds m) : segOf c m = s := by
  unfold segOf
  rcases hfind : c.segs.find? (fun s => s.start ≤ toPhys m ∧ toPhys m < s.stop) with _ | t
  · rw [List.find?_eq_none] at hfind
    exact absurd (decide_eq_true ⟨hm.1, hm.2⟩) (hfind s hs)
  have ht := List.find?_some hfind
  rw [decide_eq_true_eq] at ht
  rw [hfind, Option.getD_some]
  exact seg_unique (List.mem_of_find?_eq_some hfind) hs ⟨ht.1, ht.2⟩ hm

/-- The page of an address of a segment. -/
theorem page_toPhys (hs : s ∈ c.segs) (hm : s.start ≤ toPhys m) : s.page (toPhys m) = m := by
  rcases (c.seg_pages s hs).1 with ⟨q, hq⟩
  have hstart : s.start = toPhys q := by rw [hq, toPhys_eq, Nat.mul_comm]
  have hqm : q ≤ m := by
    rw [hstart] at hm
    exact toPhys_le.mp hm
  have hatop : ∀ x, atop (toPhys x) = x := fun x => Nat.shiftLeft_shiftRight x pageShift
  have hsub : toPhys m - toPhys q = toPhys (m - q) := by
    rw [toPhys_eq, toPhys_eq, toPhys_eq, Nat.sub_mul]
  rw [Seg.page, hstart, hsub, hatop, hatop]
  omega

/-- A run of pages lies in the segment of any of its pages. -/
theorem InSeg.holds (h : InSeg c m n) (hle : m ≤ p) (hlt : p < m + n) :
    segOf c p ∈ c.segs ∧ (segOf c p).Holds p ∧ (segOf c p).start ≤ toPhys m ∧
      toPhys (m + n) ≤ (segOf c p).stop := by
  rcases h with ⟨s, hs, hstart, hstop⟩
  have hholds : s.Holds p :=
    ⟨le_trans hstart (toPhys_le.mpr hle), lt_of_lt_of_le (toPhys_lt.mpr hlt) hstop⟩
  rw [segOf_eq hs hholds]
  exact ⟨hs, hholds, hstart, hstop⟩

theorem InSeg.sub {m' n' : Nat} (h : InSeg c m n) (hle : m ≤ m') (hlt : m' + n' ≤ m + n) :
    InSeg c m' n' := by
  rcases h with ⟨s, hs, hstart, hstop⟩
  exact ⟨s, hs, le_trans hstart (toPhys_le.mpr hle), le_trans (toPhys_le.mpr hlt) hstop⟩

theorem InSeg.segOf_eq (h : InSeg c m n) (hle : m ≤ p) (hlt : p < m + n) :
    segOf c p = segOf c m := by
  have hp := h.holds hle hlt
  have hm : (segOf c p).Holds m :=
    ⟨hp.2.2.1, lt_of_le_of_lt (toPhys_le.mpr hle) hp.2.1.2⟩
  exact (Phys.segOf_eq hp.1 hm).symm

section fields

variable (fl : Freelist) (pool : Nat) (tail : Bool)

@[simp] theorem rem_order : (vmFreelistRem c st fl m k).order =
    update st.order m c.nfreeorder := rfl

@[simp] theorem rem_pool : (vmFreelistRem c st fl m k).pool = st.pool := rfl

@[simp] theorem add_order : (vmFreelistAdd st fl m k tail).order = update st.order m k :=
  rfl

@[simp] theorem add_pool : (vmFreelistAdd st fl m k tail).pool = st.pool := rfl

end fields

/-- The pages that are free: those in some block. -/
def freePages (c : Conf) (st : Pages) : Set Nat := covered c.nfreeorder st.order

/-- Blocks are aligned and apart, lie in one segment, are on the queue of their
    segment, pool and order and on no other, and have one pool each. -/
structure Ok (c : Conf) (st : Pages) : Prop where
  blocks : BuddyMap c.nfreeorder st.order
  inside : ∀ m, st.order m < c.nfreeorder → InSeg c m (2 ^ st.order m)
  queued : Bucketed st.queues (fun m => st.order m < c.nfreeorder)
    (fun m => ((segOf c m).freeQueues (st.pool m), st.order m))
  pools : ∀ m, st.order m < c.nfreeorder → ∀ p ∈ Set.Ico m (m + 2 ^ st.order m),
    st.pool p = st.pool m

/-- A well formed state in which no two blocks could be joined, with its free
    pages. -/
structure Good (c : Conf) (st : Pages) (F : Set Nat) : Prop where
  ok : Ok c st
  joined : Coalesced c.nfreeorder (Same c) st.order
  free : freePages c st = F

/-- All pages of a block have one pool. -/
def OnePool (st : Pages) (m k : Nat) : Prop := ∀ p ∈ Set.Ico m (m + 2 ^ k), st.pool p = st.pool m

/-- A block whose pages are not free, as it must be to enter a queue. -/
structure Loose (c : Conf) (st : Pages) (F : Set Nat) (m k : Nat) : Prop where
  lt : k < c.nfreeorder
  dvd : 2 ^ k ∣ m
  inSeg : InSeg c m (2 ^ k)
  disjoint : Disjoint (Set.Ico m (m + 2 ^ k)) F
  onePool : OnePool st m k

theorem Good.order_eq (h : Good c st F) (hm : m ∉ F) : st.order m = c.nfreeorder :=
  h.ok.blocks.eq_limit (by rw [show covered c.nfreeorder st.order = F from h.free]; exact hm)

/-- The pages of a block are free. -/
theorem Good.block_sub (h : Good c st F) (hm : st.order m < c.nfreeorder) :
    Set.Ico m (m + 2 ^ st.order m) ⊆ F := by
  intro p hp
  rw [← h.free]
  exact ⟨m, hp.1, hm, hp.2⟩

section rem

theorem Ok.rem (h : Ok c st) (hm : st.order m = k) (hfl : fl = (segOf c m).freeQueues (st.pool m)) :
    Ok c (vmFreelistRem c st fl m k) := by
  have hother : ∀ m', update st.order m c.nfreeorder m' < c.nfreeorder ↔
      st.order m' < c.nfreeorder ∧ m' ≠ m := by
    intro m'
    rw [update_apply]
    by_cases hmm : m' = m
    · rw [if_pos hmm]
      exact ⟨fun hlt => absurd hlt (lt_irrefl _), fun hlt => absurd hmm hlt.2⟩
    · rw [if_neg hmm]
      exact ⟨fun hlt => ⟨hlt, hmm⟩, fun hlt => hlt.1⟩
  refine ⟨h.blocks.remove, fun m' hm' => ?_, ?_, fun m' hm' => ?_⟩
  · have hm'' := (hother m').mp hm'
    rw [rem_order, update_of_ne hm''.2]
    exact h.inside m' hm''.1
  · have herase := h.queued.erase_at m
    rw [hm, ← hfl] at herase
    refine herase.congr hother (fun m' hm' => ?_)
    rw [rem_order, rem_pool, update_of_ne hm'.2]
  have hm'' := (hother m').mp hm'
  rw [rem_order, update_of_ne hm''.2]
  exact h.pools m' hm''.1

/-- A block leaves its queue. -/
theorem Good.rem (h : Good c st F) (hm : st.order m = k) (hk : k < c.nfreeorder)
    (hfl : fl = (segOf c m).freeQueues (st.pool m)) :
    Good c (vmFreelistRem c st fl m k) (F \ Set.Ico m (m + 2 ^ k)) := by
  refine ⟨h.ok.rem hm hfl, h.joined.remove, ?_⟩
  rw [← h.free, ← hm]
  exact covered_remove h.ok.blocks (by rw [hm]; exact hk)

end rem

section add

theorem Ok.add {tail : Bool} (h : Ok c st) (hk : k < c.nfreeorder) (hdvd : 2 ^ k ∣ m)
    (hseg : InSeg c m (2 ^ k)) (hnew : ∀ p ∈ Set.Ico m (m + 2 ^ k), p ∉ freePages c st)
    (hpool : OnePool st m k) (hfl : fl = (segOf c m).freeQueues (st.pool m)) :
    Ok c (vmFreelistAdd st fl m k tail) := by
  have hm : ¬ st.order m < c.nfreeorder := fun hlt =>
    hnew m ⟨Nat.le_refl m, Nat.lt_add_of_pos_right (Nat.two_pow_pos k)⟩ (covered_head hlt)
  refine ⟨h.blocks.insert hk hdvd hnew, fun m' hm' => ?_, ?_, fun m' hm' => ?_⟩
  · by_cases hmm : m' = m
    · subst hmm
      rw [add_order, update_self]
      exact hseg
    · rw [add_order, update_of_ne hmm] at hm' ⊢
      exact h.inside m' hm'
  · -- The new page has the key of its queue once its order is set.
    have hold : Bucketed st.queues (fun m' => st.order m' < c.nfreeorder)
        (fun m' => ((segOf c m').freeQueues (st.pool m'), update st.order m k m')) := by
      refine h.queued.congr (fun _ => Iff.rfl) (fun m' hm' => ?_)
      rw [update_of_ne]
      rintro rfl
      exact hm hm'
    have hpush := hold.push hm
    rw [update_self, ← hfl] at hpush
    refine (hpush.perm (fun i => ?_)).congr (fun m' => ?_) (fun _ _ => rfl)
    · unfold vmFreelistAdd
      simp only [update_apply]
      split
      · cases tail with
        | true => exact List.perm_append_comm
        | false => exact List.Perm.refl _
      · exact List.Perm.refl _
    rw [add_order, update_apply]
    by_cases hmm : m' = m
    · rw [if_pos hmm]
      exact ⟨fun _ => Or.inr hmm, fun _ => hk⟩
    · rw [if_neg hmm]
      exact ⟨Or.inl, fun hor => hor.resolve_right hmm⟩
  by_cases hmm : m' = m
  · subst hmm
    rw [add_order, update_self]
    exact hpool
  · rw [add_order, update_of_ne hmm] at hm' ⊢
    exact h.pools m' hm'

/-- A block that could not be joined with its buddy enters its queue. -/
theorem Good.add {tail : Bool} (h : Good c st F) (hm : Loose c st F m k)
    (hfl : fl = (segOf c m).freeQueues (st.pool m))
    (hbuddy : k + 1 < c.nfreeorder → Same c m (buddy m k) → st.order (buddy m k) ≠ k) :
    Good c (vmFreelistAdd st fl m k tail) (F ∪ Set.Ico m (m + 2 ^ k)) := by
  have hnew' : ∀ p ∈ Set.Ico m (m + 2 ^ k), p ∉ freePages c st := by
    intro p hp
    rw [h.free]
    exact Set.disjoint_left.mp hm.disjoint hp
  refine ⟨h.ok.add hm.lt hm.dvd hm.inSeg hnew' hm.onePool hfl,
    h.joined.insert (fun _ _ hs => hs.symm) hbuddy, ?_⟩
  rw [← h.free]
  exact covered_insert hm.lt (hnew' m ⟨Nat.le_refl m, Nat.lt_add_of_pos_right (Nat.two_pow_pos k)⟩)

end add

section setPool

theorem setPool_of_notMem (hp : p ∉ Set.Ico m (m + 2 ^ k)) :
    (vmPhysSetPool pool st m k).pool p = st.pool p := by
  have hshift : 1 <<< k = 2 ^ k := by rw [Nat.shiftLeft_eq, Nat.one_mul]
  unfold vmPhysSetPool
  rw [hshift]
  exact if_neg hp

theorem setPool_of_mem (hp : p ∈ Set.Ico m (m + 2 ^ k)) :
    (vmPhysSetPool pool st m k).pool p = pool := by
  have hshift : 1 <<< k = 2 ^ k := by rw [Nat.shiftLeft_eq, Nat.one_mul]
  unfold vmPhysSetPool
  rw [hshift]
  exact if_pos hp

/-- Pages that are not free change their pool. -/
theorem Good.setPool (pool : Nat) (h : Good c st F) (hnew : Disjoint (Set.Ico m (m + 2 ^ k)) F) :
    Good c (vmPhysSetPool pool st m k) F := by
  have hsame : ∀ p ∈ F, (vmPhysSetPool pool st m k).pool p = st.pool p :=
    fun p hp => setPool_of_notMem (Set.disjoint_right.mp hnew hp)
  refine ⟨⟨h.ok.blocks, h.ok.inside, h.ok.queued.congr (fun _ => Iff.rfl) (fun m' hm' => ?_),
    fun m' hm' p hp => ?_⟩, h.joined, h.free⟩
  · have hin : m' ∈ F := by
      rw [← h.free]
      exact covered_head hm'
    rw [hsame m' hin]
    rfl
  have hsub := h.block_sub hm'
  have hm'' : m' ∈ F := hsub ⟨Nat.le_refl m', Nat.lt_add_of_pos_right (Nat.two_pow_pos _)⟩
  rw [hsame p (hsub hp), hsame m' hm'']
  exact h.ok.pools m' hm' p hp

/-- The pool is only set where the first page has another one. -/
def ensurePool (pool : Nat) (st : Pages) (m k : Nat) : Pages :=
  if st.pool m ≠ pool then vmPhysSetPool pool st m k else st

theorem ensurePool_of_notMem (hp : p ∉ Set.Ico m (m + 2 ^ k)) :
    (ensurePool pool st m k).pool p = st.pool p := by
  unfold ensurePool
  split
  · exact setPool_of_notMem hp
  · rfl

theorem ensurePool_of_mem (hone : OnePool st m k) (hp : p ∈ Set.Ico m (m + 2 ^ k)) :
    (ensurePool pool st m k).pool p = pool := by
  unfold ensurePool
  split
  case isTrue => exact setPool_of_mem hp
  case isFalse heq => rw [hone p hp, not_not.mp heq]

theorem Good.ensurePool (pool : Nat) (h : Good c st F)
    (hnew : Disjoint (Set.Ico m (m + 2 ^ k)) F) : Good c (ensurePool pool st m k) F := by
  unfold Phys.ensurePool
  split
  · exact h.setPool pool hnew
  · exact h

end setPool

theorem vmPhysInit_good (c : Conf) : Good c (vmPhysInit c) ∅ := by
  have hnone : ∀ m, ¬ (vmPhysInit c).order m < c.nfreeorder := fun m => lt_irrefl _
  refine ⟨⟨⟨fun m => le_rfl, fun m hm => absurd hm (hnone m),
    fun m _ hm => absurd hm (hnone m)⟩, fun m hm => absurd hm (hnone m),
    ⟨fun i m => ?_, fun i => List.nodup_nil⟩, fun m hm => absurd hm (hnone m)⟩, fun m hm => ?_, ?_⟩
  · exact ⟨fun hin => absurd hin List.not_mem_nil, fun hin => absurd hin.1 (hnone m)⟩
  · exact absurd (Nat.lt_of_succ_lt hm) (hnone m)
  · ext p
    exact ⟨fun ⟨m, _, hm, _⟩ => hnone m hm, fun hp => absurd hp (Set.notMem_empty p)⟩

end FreeBSDKern.Phys
