import FreeBSDKern.Lib.Run
import FreeBSDKern.Phys.Contig

/-!
# Runs of the Page Allocator

What the allocator should be, said of its pages and queues alone, and what its
callers have to keep to for that.

Nothing in `vm_phys_free_pages` looks at the pages behind the first one. The block
must be at a multiple of its size and its pages must have one pool, and both are up
to the caller: pages are freed one at a time, or as the reservation they were
allocated as. A run that was allocated from several of the largest blocks may have a
pool for each of them, and it is freed in blocks that are not larger. The length of a
run must be one whose size in bytes is an address.

## Main definitions

* `Intact`: What the allocator should be.
* `Exact`: An operation changes the free pages by those it is given or returns.
* `Valid`: What the assertions of an operation and its contract ask for.
* `Proper`: What its callers keep to.

## Theorems

* `exec_good`: One operation.
* `buddy_intact`: Every run of proper operations.
* `improper_calls`: What valid operations can do otherwise.
-/

namespace FreeBSDKern.Phys

open Lib

variable {c : Conf} {st : Pages} {F : Set Nat}

/-- What the allocator should be. -/
structure Intact (c : Conf) (st : Pages) : Prop where
  /-- Free blocks are naturally aligned, inside one segment, and disjoint. -/
  aligned : ∀ m, st.order m < c.nfreeorder → 2 ^ st.order m ∣ m
  inside : ∀ m, st.order m < c.nfreeorder → InSeg c m (2 ^ st.order m)
  apart : ∀ m m', st.order m < c.nfreeorder → st.order m' < c.nfreeorder → m ≠ m' →
    Disjoint (Set.Ico m (m + 2 ^ st.order m)) (Set.Ico m' (m' + 2 ^ st.order m'))
  /-- A page has an order exactly if it is on the queue of that order, its segment and
      its pool. -/
  queue : ∀ m k, k < c.nfreeorder →
    (st.order m = k ↔ m ∈ st.queues ((segOf c m).freeQueues (st.pool m), k))
  limit : ∀ m, st.order m ≤ c.nfreeorder
  /-- There is nothing else on a queue, and nothing twice. -/
  queued : ∀ fl k, ∀ m ∈ st.queues (fl, k), k < c.nfreeorder ∧ st.order m = k ∧
    fl = (segOf c m).freeQueues (st.pool m)
  once : ∀ fl k, (st.queues (fl, k)).Nodup
  /-- The pages of a free block have one pool. -/
  pools : ∀ m, st.order m < c.nfreeorder → ∀ p ∈ Set.Ico m (m + 2 ^ st.order m),
    st.pool p = st.pool m
  /-- No two buddies in one segment are both free. -/
  buddies : ∀ m, st.order m + 1 < c.nfreeorder → Same c m (buddy m (st.order m)) →
    st.order (buddy m (st.order m)) ≠ st.order m

/-- The first page and the number of the pages an operation is given. -/
def given : Op → Option (Nat × Nat)
  | .freePages m order => some (m, 2 ^ order)
  | .freeContig m npages => some (m, npages)
  | _ => none

/-- The number of pages an operation returns, if it returns any. -/
def wanted : Op → Nat
  | .allocPages _ _ order => 2 ^ order
  | .unfreePage _ => 1
  | .allocContig _ r => r.npages
  | _ => 0

/-- The free pages change by exactly those given or returned. -/
def Exact (c : Conf) (st : Pages) (op : Op) : Prop :=
  match given op, (exec c st op).1 with
  | some (m, n), _ => Disjoint (Set.Ico m (m + n)) (freePages c st) ∧
      freePages c (exec c st op).2 = freePages c st ∪ Set.Ico m (m + n)
  | none, some m => Set.Ico m (m + wanted op) ⊆ freePages c st ∧
      freePages c (exec c st op).2 = freePages c st \ Set.Ico m (m + wanted op)
  | none, none => freePages c (exec c st op).2 = freePages c st

/-- The pages of a segment are not free. -/
def Allocated (c : Conf) (st : Pages) (m n : Nat) : Prop :=
  InSeg c m n ∧ ∀ i < n, m + i ∉ freePages c st

/-- The pages that lie in the same block of the largest order have the same pool. -/
def SharePool (c : Conf) (st : Pages) (m n : Nat) : Prop :=
  ∀ i < n, ∀ j < n, (m + i) / 2 ^ (c.nfreeorder - 1) = (m + j) / 2 ^ (c.nfreeorder - 1) →
    st.pool (m + i) = st.pool (m + j)

/-- `powerof2`. -/
def Powerof2 (x : Nat) : Prop := (BitVec.ofNat 64 x - 1) &&& BitVec.ofNat 64 x = 0

/-- What the assertions of an operation ask for. Only pages that are not free are
    freed. -/
def Valid (c : Conf) (st : Pages) : Op → Prop
  | .freePages m order => order < c.nfreeorder ∧ Allocated c st m (2 ^ order)
  | .freeContig m npages => Allocated c st m npages
  | .allocPages _ pool order => pool < c.nfreepool ∧ order < c.nfreeorder
  | .unfreePage m => InSeg c m 1
  | .allocContig _ r => 0 < r.npages ∧ r.npages < 2 ^ 64 ∧ Powerof2 r.alignment ∧
      Powerof2 r.boundary

/-- What a caller keeps to beyond that. -/
def Keeps (c : Conf) (st : Pages) : Op → Prop
  | .freePages m order => 2 ^ order ∣ m ∧ SharePool c st m (2 ^ order)
  | .freeContig m npages => SharePool c st m npages
  | .allocContig _ r => toPhys r.npages < 2 ^ 64
  | _ => True

/-- A call the callers make. -/
def Proper (c : Conf) (st : Pages) (op : Op) : Prop := Valid c st op ∧ Keeps c st op

section decidable

instance freePages.decidable (c : Conf) (st : Pages) (p : Nat) : Decidable (p ∈ freePages c st) :=
  decidable_of_iff (∃ m, m < p + 1 ∧ st.order m < c.nfreeorder ∧ p < m + 2 ^ st.order m) (by
    simp only [Nat.lt_succ_iff]
    rfl)

instance InSeg.decidable (c : Conf) (m n : Nat) : Decidable (InSeg c m n) :=
  inferInstanceAs (Decidable (∃ s ∈ c.segs, s.start ≤ toPhys m ∧ toPhys (m + n) ≤ s.stop))

instance Allocated.decidable (c : Conf) (st : Pages) (m n : Nat) : Decidable (Allocated c st m n) :=
  inferInstanceAs (Decidable (InSeg c m n ∧ ∀ i < n, m + i ∉ freePages c st))

instance SharePool.decidable (c : Conf) (st : Pages) (m n : Nat) : Decidable (SharePool c st m n) :=
  inferInstanceAs (Decidable (∀ i < n, ∀ j < n, _ → _))

instance Powerof2.decidable (x : Nat) : Decidable (Powerof2 x) :=
  inferInstanceAs (Decidable ((BitVec.ofNat 64 x - 1) &&& BitVec.ofNat 64 x = 0))

instance Valid.decidable (c : Conf) (st : Pages) : ∀ op, Decidable (Valid c st op)
  | .freePages m order =>
    inferInstanceAs (Decidable (order < c.nfreeorder ∧ Allocated c st m (2 ^ order)))
  | .freeContig m npages => inferInstanceAs (Decidable (Allocated c st m npages))
  | .allocPages _ pool order =>
    inferInstanceAs (Decidable (pool < c.nfreepool ∧ order < c.nfreeorder))
  | .unfreePage m => inferInstanceAs (Decidable (InSeg c m 1))
  | .allocContig _ r => inferInstanceAs (Decidable (0 < r.npages ∧ r.npages < 2 ^ 64 ∧
      Powerof2 r.alignment ∧ Powerof2 r.boundary))

instance Keeps.decidable (c : Conf) (st : Pages) : ∀ op, Decidable (Keeps c st op)
  | .freePages m order => inferInstanceAs (Decidable (2 ^ order ∣ m ∧ SharePool c st m (2 ^ order)))
  | .freeContig m npages => inferInstanceAs (Decidable (SharePool c st m npages))
  | .allocPages _ _ _ => isTrue trivial
  | .unfreePage _ => isTrue trivial
  | .allocContig _ r => inferInstanceAs (Decidable (toPhys r.npages < 2 ^ 64))

instance Proper.decidable (c : Conf) (st : Pages) (op : Op) : Decidable (Proper c st op) :=
  inferInstanceAs (Decidable (Valid c st op ∧ Keeps c st op))

end decidable

theorem Good.intact (h : Good c st F) : Intact c st := by
  refine ⟨h.ok.blocks.aligned, h.ok.inside, fun m m' hm hm' hne => ?_, fun m k hk => ?_,
    h.ok.blocks.le, fun fl k m hm => ?_, fun fl k => h.ok.queued.nodup (fl, k), h.ok.pools, h.joined⟩
  · refine Set.disjoint_left.mpr (fun p hp hp' => hne ?_)
    exact h.ok.blocks.head_unique hm hm' hp.1 hp.2 hp'.1 hp'.2
  · rw [h.ok.queued.mem, Prod.mk.injEq, and_iff_right rfl]
    exact ⟨fun heq => ⟨by rw [heq]; exact hk, heq⟩, fun heq => heq.2⟩
  · rcases h.of_queue hm with ⟨hord, hk, hfl⟩
    exact ⟨hk, hord, hfl⟩

/-- The pages of a proper call can be freed. -/
theorem Good.looseRun {m n : Nat} (h : Good c st F) (halloc : Allocated c st m n)
    (hshare : SharePool c st m n) : LooseRun c st F m n := by
  refine ⟨halloc.1, Set.disjoint_left.mpr (fun p hp => ?_), fun p hp q hq hpq => ?_⟩
  · have := halloc.2 (p - m) (by have := hp.1; have := hp.2; omega)
    rwa [Nat.add_sub_cancel' hp.1, h.free] at this
  have := hshare (p - m) (by have := hp.1; have := hp.2; omega) (q - m)
    (by have := hq.1; have := hq.2; omega)
  rw [Nat.add_sub_cancel' hp.1, Nat.add_sub_cancel' hq.1] at this
  exact this hpq

/-- A call that takes pages or does nothing. -/
theorem exact_of_taken {op : Op} (h : Good c st F) (hgiven : given op = none)
    (hres : match exec c st op with
      | (some m, st') => Taken c st' F m (wanted op)
      | (none, st') => st' = st) :
    (∃ F', Good c (exec c st op).2 F') ∧ Exact c st op := by
  unfold Exact
  rw [hgiven]
  rcases hexec : exec c st op with ⟨_ | m, st'⟩
  · rw [hexec] at hres
    dsimp only at hres ⊢
    subst hres
    exact ⟨⟨F, h⟩, rfl⟩
  rw [hexec] at hres
  dsimp only at hres ⊢
  rw [h.free]
  exact ⟨⟨_, hres.2⟩, hres.1, hres.2.free⟩

theorem exec_good {op : Op} (h : Good c st F) (hop : Proper c st op) :
    (∃ F', Good c (exec c st op).2 F') ∧ Exact c st op := by
  cases op with
  | freePages m order =>
    rcases hop with ⟨⟨hlt, halloc⟩, hdvd, hshare⟩
    have hloose := (h.looseRun halloc hshare).block hlt hdvd le_rfl
    have hgood := (vmPhysFreePages_good h hloose).1
    refine ⟨⟨_, hgood⟩, ?_⟩
    show _ ∧ _
    rw [h.free]
    exact ⟨hloose.disjoint, hgood.free⟩
  | freeContig m npages =>
    rcases hop with ⟨halloc, hshare⟩
    have hrun := h.looseRun halloc hshare
    have hgood := (vmPhysFreeContig_good h hrun).1
    refine ⟨⟨_, hgood⟩, ?_⟩
    show _ ∧ _
    rw [h.free]
    exact ⟨hrun.disjoint, hgood.free⟩
  | allocPages domains pool order =>
    exact exact_of_taken h rfl (vmPhysAllocPages_spec h (freelists c domains))
  | unfreePage m =>
    have hspec := vmPhysUnfreePage_spec h hop.1
    refine exact_of_taken h rfl ?_
    rcases hres : vmPhysUnfreePage c st m with ⟨found, st'⟩
    rw [hres] at hspec
    simp only [exec, hres]
    cases found with
    | true => exact hspec
    | false => exact hspec.1
  | allocContig domains r =>
    refine exact_of_taken h rfl ?_
    rcases hres : vmPhysAllocContig c st r domains with _ | ⟨m, st'⟩
    · simp only [exec, hres]
    · simp only [exec, hres]
      exact (vmPhysAllocContig_taken h hop.1.1 hop.2 hres).taken

/-- The state after an operation. -/
def next (c : Conf) (st : Pages) (op : Op) : Option Pages := some (exec c st op).2

theorem run_good (c : Conf) (ops : List Op)
    (hops : EveryStep (next c) (Proper c) (vmPhysInit c) ops) :
    ∃ st, runOps (next c) (vmPhysInit c) ops = some st ∧ ∃ F, Good c st F := by
  refine runOps_progress_of (next c) (Proper c) (fun st => ∃ F, Good c st F) ?_ ops _
    ⟨∅, vmPhysInit_good c⟩ hops
  rintro st op ⟨F, hgood⟩ hop
  exact ⟨_, rfl, (exec_good hgood hop).1⟩

/-- After every run of proper operations the allocator is what it should be, and
    every further one changes the free pages by exactly those it is given or
    returns. -/
theorem buddy_intact (c : Conf) (ops : List Op)
    (hops : EveryStep (next c) (Proper c) (vmPhysInit c) ops) :
    ∃ st, runOps (next c) (vmPhysInit c) ops = some st ∧ Intact c st ∧
      ∀ op, Proper c st op → Exact c st op := by
  rcases run_good c ops hops with ⟨st, hrun, F, hgood⟩
  exact ⟨st, hrun, hgood.intact, fun op hop => (exec_good hgood hop).2⟩

/-- An amd64 machine with sixteen pages. -/
def sixteenPages : Conf where
  nfreeorder := 13
  nfreepool := 2
  nfreelists := 1
  segs := [⟨16 <<< 12, 32 <<< 12, 0, 0⟩]
  order_pos := by decide
  order_le := by decide
  seg_pages := by decide
  seg_sorted := by decide

/-- Pages are freed, a block, a page of another and a run are taken, and the block is
    given back. -/
theorem buddy_intact_sixteen :
    EveryStep (next sixteenPages) (Proper sixteenPages) (vmPhysInit sixteenPages)
      [.freeContig 17 7, .allocPages [0] 1 1, .unfreePage 22, .allocContig [0] ⟨1, 0, 2 ^ 40, 1, 0⟩,
        .freePages 20 1] ∧
    ∃ st, runOps (next sixteenPages) (vmPhysInit sixteenPages)
      [.freeContig 17 7, .allocPages [0] 1 1, .unfreePage 22, .allocContig [0] ⟨1, 0, 2 ^ 40, 1, 0⟩,
        .freePages 20 1] = some st ∧
      Intact sixteenPages st ∧ ∀ op, Proper sixteenPages st op → Exact sixteenPages st op := by
  have hops : EveryStep (next sixteenPages) (Proper sixteenPages) (vmPhysInit sixteenPages)
      [.freeContig 17 7, .allocPages [0] 1 1, .unfreePage 22, .allocContig [0] ⟨1, 0, 2 ^ 40, 1, 0⟩,
        .freePages 20 1] := by
    decide +kernel
  exact ⟨hops, buddy_intact sixteenPages _ hops⟩

/-- The operations are valid, and one of them goes wrong: the state after the run is
    not what it should be, or the last one does not return free pages. -/
def GoesWrong (c : Conf) (ops : List Op) (last : Op) : Prop :=
  EveryStep (next c) (Valid c) (vmPhysInit c) (ops ++ [last]) ∧
    ∃ st, runOps (next c) (vmPhysInit c) ops = some st ∧
      (¬ Intact c (exec c st last).2 ∨ ¬ Exact c st last)

/-- Two pages that were allocated from different pools are freed as one block. -/
theorem mixed_pools : GoesWrong sixteenPages
    [.freePages 16 1, .allocPages [0] 0 0, .allocPages [0] 1 0] (.freePages 16 1) := by
  refine ⟨by decide, _, rfl, Or.inl (fun h => ?_)⟩
  have hpool := h.pools 16 (by decide) 17 (by
    rw [Set.mem_Ico]
    decide)
  exact absurd hpool (by decide)

/-- A block is freed that is not at a multiple of its size. -/
theorem unaligned_block : GoesWrong sixteenPages [] (.freePages 17 1) := by
  refine ⟨by decide, _, rfl, Or.inl (fun h => ?_)⟩
  exact absurd (h.aligned 17 (by decide)) (by decide)

/-- An amd64 machine with one block of the largest order. -/
def oneBlock : Conf where
  nfreeorder := 13
  nfreepool := 2
  nfreelists := 1
  segs := [⟨4096 <<< 12, 8192 <<< 12, 0, 0⟩]
  order_pos := by decide
  order_le := by decide
  seg_pages := by decide
  seg_sorted := by decide

/-- The size in bytes of the run asked for is zero in a word, so any block is long
    enough for it. -/
theorem wrapped_size : GoesWrong oneBlock [.freePages 4096 12]
    (.allocContig [0] ⟨2 ^ 52, 0, 2 ^ 63, 1, 0⟩) := by
  have hnone : ∀ p, p ∉ freePages oneBlock (vmPhysInit oneBlock) := by
    intro p
    rw [(vmPhysInit_good oneBlock).free]
    exact Set.notMem_empty p
  have hvalid : Valid oneBlock (vmPhysInit oneBlock) (.freePages 4096 12) :=
    ⟨by decide, by decide, fun i _ => hnone _⟩
  have hproper : Proper oneBlock (vmPhysInit oneBlock) (.freePages 4096 12) :=
    ⟨hvalid, by decide, fun _ _ _ _ _ => rfl⟩
  refine ⟨⟨hvalid, fun st _ => ⟨⟨by decide, by decide, by decide, by decide⟩,
    fun _ _ => trivial⟩⟩, _, rfl, Or.inr (fun h => ?_)⟩
  -- Only the pages of the one block are free.
  have hfree := (exec_good (vmPhysInit_good oneBlock) hproper).2.2
  rw [(vmPhysInit_good oneBlock).free, Set.empty_union] at hfree
  have hfound : (exec oneBlock (exec oneBlock (vmPhysInit oneBlock) (.freePages 4096 12)).2
      (.allocContig [0] ⟨2 ^ 52, 0, 2 ^ 63, 1, 0⟩)).1 = some 4096 := by decide
  unfold Exact at h
  rw [hfound, hfree] at h
  have hin : 2 ^ 20 ∈ Set.Ico 4096 (4096 + 2 ^ 12) := h.1 (by
    rw [Set.mem_Ico]
    exact ⟨by decide, by decide⟩)
  exact absurd hin.2 (by decide)

/-- What the callers keep to matters: without any one of it the operations go wrong. -/
theorem improper_calls :
    GoesWrong sixteenPages [.freePages 16 1, .allocPages [0] 0 0, .allocPages [0] 1 0]
      (.freePages 16 1) ∧
    GoesWrong sixteenPages [] (.freePages 17 1) ∧
    GoesWrong oneBlock [.freePages 4096 12] (.allocContig [0] ⟨2 ^ 52, 0, 2 ^ 63, 1, 0⟩) :=
  ⟨mixed_pools, unaligned_block, wrapped_size⟩

end FreeBSDKern.Phys
