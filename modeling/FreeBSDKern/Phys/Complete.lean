import FreeBSDKern.Phys.Intact

/-!
# What a Block Request Finds

`vm_phys_alloc_domain_pages` looks at the heads of queues and at nothing else, so
that it finds whatever there is rests on two facts about all reachable states. An
aligned run of free pages lies in a single block, since two buddies side by side
would have been joined whatever pools they had. And that block is on a queue the
second search looks at, since every page has one of the pools there are.

## Main definitions

* `FreeRun`: A naturally aligned run of free pages in one segment of a free list.
* `PoolsBelow`: Every page has one of the pools.

## Theorems

* `exec_poolsBelow`: One operation.
* `Good.block_of_freeRun`: A run lies in a block of its free list.
* `domain_pages_complete`: Every request after every run of proper operations.
-/

namespace FreeBSDKern.Phys

open Lib

variable {c : Conf} {st : Pages} {F : Set Nat} {m k n : Nat}

/-- A naturally aligned run of `2^order` free pages, of any pools, inside one segment
    of the domain and free list. -/
structure FreeRun (c : Conf) (st : Pages) (domain flind m order : Nat) : Prop where
  aligned : 2 ^ order ∣ m
  inside : ∃ s ∈ c.segs, s.domain = domain ∧ s.flind = flind ∧ s.start ≤ toPhys m ∧
    toPhys (m + 2 ^ order) ≤ s.stop
  free : Set.Ico m (m + 2 ^ order) ⊆ freePages c st

/-- Every page has one of the pools. -/
def PoolsBelow (c : Conf) (st : Pages) : Prop := ∀ p, st.pool p < c.nfreepool

section pools

theorem PoolsBelow.setPool {pool : Nat} (h : PoolsBelow c st) (hpool : pool < c.nfreepool) :
    PoolsBelow c (vmPhysSetPool pool st m k) := by
  intro p
  unfold vmPhysSetPool
  dsimp only
  split
  · exact hpool
  · exact h p

theorem vmPhysSplitPages_pool (fl : Freelist) (m order : Nat) : ∀ (oind : Nat) (st : Pages),
    (vmPhysSplitPages fl m order oind st).pool = st.pool := by
  intro oind
  induction oind with
  | zero => exact fun _ => rfl
  | succ oind ih =>
    intro st
    unfold vmPhysSplitPages
    split
    · exact ih _
    · rfl

theorem unfreeExtract_pool (seg : Seg) (fl : Freelist) (m : Nat) : ∀ (order : Nat) (st : Pages)
    (mSet : Nat), (unfreeExtract seg fl m order st mSet).pool = st.pool := by
  intro order
  induction order with
  | zero => exact fun _ _ => rfl
  | succ order ih =>
    intro st mSet
    unfold unfreeExtract
    dsimp only
    split
    · exact ih _ _
    · exact ih _ _

theorem removeRun_pool (seg : Seg) (oind : Nat) : ∀ (n : Nat) (st : Pages) (m : Nat),
    (removeRun c seg oind n st m).pool = st.pool := by
  intro n
  induction n with
  | zero => exact fun _ _ => rfl
  | succ n ih =>
    intro st m
    unfold removeRun
    exact ih _ _

theorem PoolsBelow.coalesce (seg : Seg) : ∀ (gas : Nat) {st : Pages} (m pa order : Nat),
    PoolsBelow c st → PoolsBelow c (coalesce c seg gas st m pa order).1 := by
  intro gas
  induction gas with
  | zero => exact fun _ _ _ h => h
  | succ gas ih =>
    intro st m pa order h
    unfold Phys.coalesce
    dsimp only
    split
    · exact h
    split
    · exact h
    refine ih _ _ _ ?_
    split
    · exact PoolsBelow.setPool h (h m)
    · exact h

theorem PoolsBelow.freePages (h : PoolsBelow c st) (m order : Nat) :
    PoolsBelow c (vmPhysFreePages c st m order) := by
  have hloop := PoolsBelow.coalesce (segOf c m) (c.nfreeorder - 1 - order) m (toPhys m) order h
  unfold vmPhysFreePages
  dsimp only
  generalize Phys.coalesce c (segOf c m) (c.nfreeorder - 1 - order) st m (toPhys m) order = res
    at hloop
  exact hloop

theorem PoolsBelow.freeContigUp : ∀ (gas : Nat) {st : Pages} (m n : Nat), PoolsBelow c st →
    PoolsBelow c (freeContigUp c gas st m n).1 := by
  intro gas
  induction gas with
  | zero => exact fun _ _ h => h
  | succ gas ih =>
    intro st m n h
    unfold Phys.freeContigUp
    simp only [one_shiftLeft]
    split
    · exact h
    · exact ih _ _ (h.freePages m _)

theorem PoolsBelow.freeContigDown : ∀ (gas : Nat) {st : Pages} (m n : Nat), PoolsBelow c st →
    PoolsBelow c (freeContigDown c gas st m n) := by
  intro gas
  induction gas with
  | zero => exact fun _ _ h => h
  | succ gas ih =>
    intro st m n h
    unfold Phys.freeContigDown
    split
    · exact h
    · exact ih _ _ (h.freePages m _)

section

variable (h : PoolsBelow c st)
include h

theorem PoolsBelow.freeContig (m n : Nat) :
    PoolsBelow c (vmPhysFreeContig c st m n) :=
  PoolsBelow.freeContigDown _ _ _ (PoolsBelow.freeContigUp n m n h)

theorem PoolsBelow.allocDomainPages {pool : Nat} (hpool : pool < c.nfreepool)
    (domain flind order : Nat) :
    PoolsBelow c (vmPhysAllocDomainPages c st domain flind pool order).2 := by
  intro p
  unfold vmPhysAllocDomainPages
  dsimp only
  split
  · rw [vmPhysSplitPages_pool]
    exact h p
  split
  · rw [vmPhysSplitPages_pool]
    exact PoolsBelow.setPool h hpool p
  · exact h p

theorem PoolsBelow.allocPages {pool : Nat} (hpool : pool < c.nfreepool)
    (order : Nat) : ∀ lists : List (Nat × Nat),
      PoolsBelow c (vmPhysAllocPages c st pool order lists).2 := by
  intro lists
  induction lists with
  | nil => exact h
  | cons list rest ih =>
    have hfirst := h.allocDomainPages hpool list.1 list.2 order
    have hspec : (vmPhysAllocDomainPages c st list.1 list.2 pool order).1 = none →
        (vmPhysAllocDomainPages c st list.1 list.2 pool order).2 = st := by
      unfold vmPhysAllocDomainPages
      dsimp only
      split
      · exact fun hsome => nomatch hsome
      split
      · exact fun hsome => nomatch hsome
      · exact fun _ => rfl
    unfold vmPhysAllocPages
    rcases hres : vmPhysAllocDomainPages c st list.1 list.2 pool order with ⟨_ | m, st'⟩
    · rw [hres] at hspec
      dsimp only at hspec ⊢
      rw [hspec rfl]
      exact ih
    · rw [hres] at hfirst
      exact hfirst

theorem PoolsBelow.allocSegContig {seg : Seg} {r : Request} {st' : Pages} (hres : vmPhysAllocSegContig c seg st r = some (m, st')) : PoolsBelow c st' := by
  have hdefault : freepoolDefault < c.nfreepool := lt_of_le_of_lt zero_le (h 0)
  unfold vmPhysAllocSegContig at hres
  rcases hfind : findRun c seg st r with _ | ⟨mRet, oind⟩
  · rw [hfind] at hres
    cases hres
  rw [hfind] at hres
  dsimp only at hres
  rw [Option.some.injEq, Prod.mk.injEq] at hres
  rw [← hres.2]
  have hremoved : ∀ cnt, PoolsBelow c (removeRun c seg oind cnt st mRet) := by
    intro cnt p
    rw [removeRun_pool]
    exact h p
  have hsplit : ∀ (fl : Freelist) (order : Nat) {st : Pages}, PoolsBelow c st →
      PoolsBelow c (vmPhysSplitPages fl mRet order oind st) := by
    intro fl order st h p
    rw [vmPhysSplitPages_pool]
    exact h p
  have hset : ∀ {st : Pages}, PoolsBelow c st → PoolsBelow c
      (if st.pool mRet ≠ freepoolDefault then vmPhysSetPool freepoolDefault st mRet oind
        else st) := by
    intro st h
    split
    · exact h.setPool hdefault
    · exact h
  split
  · exact (hsplit _ _ (hset (hremoved _))).freeContig _ _
  · exact hsplit _ _ (hset (hremoved _))

theorem PoolsBelow.allocContig {r : Request} {domains : List Nat} {st' : Pages}
    (hres : vmPhysAllocContig c st r domains = some (m, st')) :
    PoolsBelow c st' := by
  unfold vmPhysAllocContig at hres
  split at hres
  · cases hres
  rcases List.exists_of_findSome?_eq_some hres with ⟨domain, _, hsegs⟩
  rcases allocFromSegs_some c.segs hsegs with ⟨seg, _, _, hfound⟩
  exact h.allocSegContig hfound

/-- No operation makes up a pool. -/
theorem exec_poolsBelow {op : Op} (hop : Valid c st op) :
    PoolsBelow c (exec c st op).2 := by
  cases op with
  | freePages m order => exact h.freePages m order
  | freeContig m npages => exact h.freeContig m npages
  | allocPages domains pool order => exact h.allocPages hop.1 order _
  | unfreePage m =>
    intro p
    show (vmPhysUnfreePage c st m).2.pool p < c.nfreepool
    unfold vmPhysUnfreePage
    dsimp only
    split
    · exact h p
    split
    · exact h p
    · rw [unfreeExtract_pool]
      exact h p
  | allocContig domains r =>
    rcases hres : vmPhysAllocContig c st r domains with _ | ⟨m, st'⟩
    · simp only [exec, hres]
      exact h
    · simp only [exec, hres]
      exact h.allocContig hres

end

end pools

/-- A run of free pages lies in a block, which is on a queue of its free list. -/
theorem Good.block_of_freeRun {domain flind order : Nat} (h : Good c st F)
    (horder : order < c.nfreeorder) (hrun : FreeRun c st domain flind m order) :
    ∃ b oind, order ≤ oind ∧ oind < c.nfreeorder ∧
      b ∈ st.queues (⟨domain, flind, st.pool b⟩, oind) := by
  rcases hrun.inside with ⟨s, hs, rfl, rfl, hstart, hstop⟩
  have hholds : ∀ p ∈ Set.Ico m (m + 2 ^ order), s.Holds p := fun p hp =>
    ⟨le_trans hstart (toPhys_le.mpr hp.1), lt_of_lt_of_le (toPhys_lt.mpr hp.2) hstop⟩
  rcases h.joined.large_block h.ok.blocks horder hrun.aligned hrun.free
    (fun a ha b hb => ⟨s, hs, hholds a ha, hholds b hb⟩) with ⟨oind, hle, hlt, hord⟩
  refine ⟨floorTo m oind, oind, hle, hlt, ?_⟩
  -- The block has the page in common with the segment, so it lies in it.
  have hself := hholds m (Set.left_mem_Ico.mpr (Nat.lt_add_of_pos_right (Nat.two_pow_pos order)))
  have hblock := h.ok.inside (floorTo m oind) (by rw [hord]; exact hlt)
  rw [hord] at hblock
  have hseg : segOf c (floorTo m oind) = s := by
    rw [← segOf_eq hs hself]
    exact (hblock.segOf_eq (floorTo_le m oind) (lt_floorTo m oind)).symm
  have hqueue := (h.ok.queued.mem
    ((segOf c (floorTo m oind)).freeQueues (st.pool (floorTo m oind)), oind)
    (floorTo m oind)).mpr ⟨by rw [hord]; exact hlt, by rw [hord]⟩
  rw [hseg] at hqueue
  exact hqueue

section search

variable {domain flind pool order : Nat}

/-- No queue was left out. -/
theorem queue_nil_of_none (hres : (vmPhysAllocDomainPages c st domain flind pool order).1 = none)
    {oind pind : Nat} (hle : order ≤ oind) (hlt : oind < c.nfreeorder) (hpind : pind < c.nfreepool) :
    st.queues (⟨domain, flind, pind⟩, oind) = [] := by
  unfold vmPhysAllocDomainPages at hres
  dsimp only at hres
  split at hres
  · cases hres
  split at hres
  · cases hres
  rename_i hnone
  rw [List.findSome?_eq_none_iff] at hnone
  have hin := hnone oind (List.mem_reverse.mpr (List.mem_range'_1.mpr ⟨hle, by omega⟩))
  rw [List.findSome?_eq_none_iff] at hin
  have hhead := hin pind (List.mem_range.mpr hpind)
  rwa [Option.map_eq_none_iff, List.head?_eq_none_iff] at hhead

/-- What is returned was the head of a queue of the free list. -/
theorem mem_queue_of_some
    (hres : (vmPhysAllocDomainPages c st domain flind pool order).1 = some m) :
    ∃ oind pind, order ≤ oind ∧ m ∈ st.queues (⟨domain, flind, pind⟩, oind) := by
  unfold vmPhysAllocDomainPages at hres
  dsimp only at hres
  split at hres
  · rename_i m' oind hown
    rw [Option.some.injEq] at hres
    rcases List.exists_of_findSome?_eq_some hown with ⟨oind', hoind, hhead⟩
    rw [Option.map_eq_some_iff] at hhead
    rcases hhead with ⟨m'', hm, heq⟩
    rw [Prod.mk.injEq] at heq
    rcases heq with ⟨rfl, rfl⟩
    exact ⟨oind', pool, (List.mem_range'_1.mp hoind).1, hres ▸ List.mem_of_head? hm⟩
  split at hres
  · rename_i m' oind pind halt
    rw [Option.some.injEq] at hres
    rcases List.exists_of_findSome?_eq_some halt with ⟨oind', hoind, hpools⟩
    rcases List.exists_of_findSome?_eq_some hpools with ⟨pind', _, hhead⟩
    rw [Option.map_eq_some_iff] at hhead
    rcases hhead with ⟨m'', hm, heq⟩
    rw [Prod.mk.injEq, Prod.mk.injEq] at heq
    rcases heq with ⟨rfl, rfl, rfl⟩
    exact ⟨oind', pind', (List.mem_range'_1.mp (List.mem_reverse.mp hoind)).1,
      hres ▸ List.mem_of_head? hm⟩
  · cases hres

end search

/-- The head of a queue starts a run of free pages of any smaller order. -/
theorem Good.freeRun_of_queue {domain flind pind oind order : Nat} (h : Good c st F)
    (hle : order ≤ oind) (hm : m ∈ st.queues (⟨domain, flind, pind⟩, oind)) :
    FreeRun c st domain flind m order := by
  rcases h.of_queue hm with ⟨hord, hlt, hfl⟩
  rw [Seg.freeQueues, Freelist.mk.injEq] at hfl
  have hlt' : st.order m < c.nfreeorder := by rw [hord]; exact hlt
  have hmono : 2 ^ order ≤ 2 ^ oind := Nat.pow_le_pow_right (by omega) hle
  have hin := h.ok.inside m hlt'
  have hdvd := h.ok.blocks.aligned m hlt'
  have hsub := h.block_sub hlt'
  rw [hord] at hin hdvd hsub
  have hspan := (hin.sub le_rfl (Nat.add_le_add_left hmono m)).holds le_rfl
    (Nat.lt_add_of_pos_right (Nat.two_pow_pos order))
  refine ⟨Nat.dvd_trans (Nat.pow_dvd_pow 2 hle) hdvd,
    ⟨segOf c m, hspan.1, hfl.1.symm, hfl.2.1.symm, hspan.2.2.1, hspan.2.2.2⟩, ?_⟩
  rw [h.free]
  exact Set.Subset.trans (Set.Ico_subset_Ico le_rfl (Nat.add_le_add_left hmono m)) hsub

/-- After every run of proper operations a request of a valid pool and order returns
    nothing only if no run of free pages is there, and otherwise the first page of
    one. -/
theorem domain_pages_complete (c : Conf) (ops : List Op)
    (hops : EveryStep (next c) (Proper c) (vmPhysInit c) ops) (domain flind pool order : Nat)
    (hpool : pool < c.nfreepool) (horder : order < c.nfreeorder) :
    ∃ st, runOps (next c) (vmPhysInit c) ops = some st ∧
      match (vmPhysAllocDomainPages c st domain flind pool order).1 with
      | none => ∀ m, ¬ FreeRun c st domain flind m order
      | some m => FreeRun c st domain flind m order := by
  have hstep : ∀ st op, ((∃ F, Good c st F) ∧ PoolsBelow c st) → Proper c st op →
      ∃ st', next c st op = some st' ∧ (∃ F, Good c st' F) ∧ PoolsBelow c st' := by
    rintro st op ⟨⟨F, hgood⟩, hpools⟩ hop
    exact ⟨_, rfl, (exec_good hgood hop).1, exec_poolsBelow hpools hop.1⟩
  have hinit : PoolsBelow c (vmPhysInit c) := fun _ => lt_of_le_of_lt zero_le hpool
  rcases runOps_progress_of (next c) (Proper c) (fun st => (∃ F, Good c st F) ∧ PoolsBelow c st)
    hstep ops _ ⟨⟨∅, vmPhysInit_good c⟩, hinit⟩ hops with ⟨st, hrun, ⟨F, hgood⟩, hpools⟩
  refine ⟨st, hrun, ?_⟩
  rcases hres : (vmPhysAllocDomainPages c st domain flind pool order).1 with _ | m
  · intro m hfree
    rcases hgood.block_of_freeRun horder hfree with ⟨b, oind, hle, hlt, hb⟩
    rw [queue_nil_of_none hres hle hlt (hpools b)] at hb
    exact absurd hb List.not_mem_nil
  · rcases mem_queue_of_some hres with ⟨oind, pind, hle, hm⟩
    exact hgood.freeRun_of_queue hle hm

/-- Pages of the default pool are freed, one is taken for the other pool, and a block is
    asked for. -/
theorem domain_pages_complete_sixteen :
    EveryStep (next sixteenPages) (Proper sixteenPages) (vmPhysInit sixteenPages)
      [.freeContig 17 7, .allocPages [0] 1 0] ∧
    ∃ st, runOps (next sixteenPages) (vmPhysInit sixteenPages)
        [.freeContig 17 7, .allocPages [0] 1 0] = some st ∧
      match (vmPhysAllocDomainPages sixteenPages st 0 0 0 1).1 with
      | none => ∀ m, ¬ FreeRun sixteenPages st 0 0 m 1
      | some m => FreeRun sixteenPages st 0 0 m 1 := by
  have hops : EveryStep (next sixteenPages) (Proper sixteenPages) (vmPhysInit sixteenPages)
      [.freeContig 17 7, .allocPages [0] 1 0] := by
    decide
  exact ⟨hops, domain_pages_complete sixteenPages _ hops 0 0 0 1 (by decide) (by decide)⟩

end FreeBSDKern.Phys
