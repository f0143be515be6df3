import FreeBSDKern.Lib.Mask
import FreeBSDKern.Phys.Intact

/-!
# What a Run Request Returns

`vm_phys_alloc_contig` takes the first block it looks at where a run meets the
request. `lookedAt` lists the blocks in the order of its loops, so that the page it
takes is described by the state before the call alone.

The pages of a run have the addresses asked for and they were free. What a caller
cannot rely on is their pool. A run that fits into one block gets the default pool,
and so does the first block of a longer run, but the blocks behind it keep the pools
they had. And where the length of a run in bytes is not a word, no run of that length
exists but one may be returned.

## Main definitions

* `lookedAt`: The blocks a request looks at, in that order.
* `FirstFit`: The first of them where a run meets the request.
* `RunAsAsked`: What the pages of a run should be.
* `DefaultBehind`: The pages behind the first block have the default pool.

## Theorems

* `vmPhysAllocContig_page`: The first fit is taken.
* `runFits_addresses`: Its addresses are those asked for.
* `contig_run`: A run is what was asked for exactly if its length is a word and the
  pages behind its first block have the default pool.
-/

namespace FreeBSDKern.Phys

open Lib Function

variable {c : Conf} {st : Pages} {F : Set Nat} {m n : Nat} {seg : Seg} {r : Request}

section firstFit

/-- The segments of a domain that are searched. -/
def segsSearched (c : Conf) (r : Request) (domain : Nat) : List Seg :=
  (c.segs.takeWhile (fun seg => ¬ r.high ≤ seg.start)).filter (fun seg =>
    ¬ (seg.stop ≤ r.low ∨ seg.domain ≠ domain) ∧
      ¬ (if r.high < seg.stop then r.high else seg.stop) -
        (if r.low ≤ seg.start then seg.start else r.low) < ptoa r.npages)

/-- The blocks on the queues of a segment that are large enough or of the largest
    order, by order, pool and place on the queue. -/
def blocksSearched (c : Conf) (seg : Seg) (st : Pages) (r : Request) : List Nat :=
  let oind := min (fitOrder r.npages) (c.nfreeorder - 1)
  (List.range' oind (c.nfreeorder - oind)).flatMap (fun oind =>
    (List.range c.nfreepool).flatMap (fun pind => st.queues (seg.freeQueues pind, oind)))

/-- The blocks a request looks at, each with the segment that is searched. -/
def lookedAt (c : Conf) (st : Pages) (r : Request) (domains : List Nat) : List (Seg × Nat) :=
  if r.high ≤ r.low then []
  else domains.flatMap (fun domain => (segsSearched c r domain).flatMap (fun seg =>
    (blocksSearched c seg st r).map (fun m => (seg, m))))

/-- A run at this block meets the request, and none does at a block before it. -/
def FirstFit (c : Conf) (st : Pages) (r : Request) (domains : List Nat) (seg : Seg) (m : Nat) :
    Prop :=
  ∃ pre post, lookedAt c st r domains = pre ++ (seg, m) :: post ∧
    (∀ x ∈ pre, runFits c x.1 st r x.2 = false) ∧ runFits c seg st r m = true

variable {domains : List Nat}

theorem firstFit_iff : FirstFit c st r domains seg m ↔
    (lookedAt c st r domains).find? (fun x => runFits c x.1 st r x.2) = some (seg, m) := by
  rw [List.find?_eq_some_iff_append]
  constructor
  · rintro ⟨pre, post, hsplit, hpre, hfits⟩
    exact ⟨hfits, pre, post, hsplit, fun x hx => by rw [hpre x hx]; rfl⟩
  rintro ⟨hfits, pre, post, hsplit, hpre⟩
  refine ⟨pre, post, hsplit, fun x hx => ?_, hfits⟩
  have := hpre x hx
  rwa [Bool.not_eq_true'] at this

theorem findRun_page (c : Conf) (seg : Seg) (st : Pages) (r : Request) :
    (findRun c seg st r).map Prod.fst = (blocksSearched c seg st r).find? (runFits c seg st r) := by
  unfold findRun blocksSearched
  dsimp only
  rw [List.find?_flatMap, List.map_findSome?]
  congr 1
  funext oind
  rw [List.find?_flatMap, comp_apply, List.map_findSome?]
  congr 1
  funext pind
  rw [comp_apply, Option.map_map]
  exact Option.map_id_apply

theorem allocSegContig_page (c : Conf) (seg : Seg) (st : Pages) (r : Request) :
    (vmPhysAllocSegContig c seg st r).map Prod.fst =
      (blocksSearched c seg st r).find? (runFits c seg st r) := by
  rw [← findRun_page]
  unfold vmPhysAllocSegContig
  rcases findRun c seg st r with _ | ⟨m, oind⟩
  · rfl
  · rfl

theorem allocFromSegs_page (c : Conf) (domain : Nat) (st : Pages) (r : Request) :
    (allocFromSegs c domain st r c.segs).map Prod.fst =
      (segsSearched c r domain).findSome? (fun seg =>
        (blocksSearched c seg st r).find? (runFits c seg st r)) := by
  unfold segsSearched
  induction c.segs with
  | nil => rfl
  | cons seg rest ih =>
    unfold allocFromSegs
    by_cases hhigh : r.high ≤ seg.start
    · rw [if_pos hhigh, List.takeWhile_cons_of_neg (by simpa only [not_not, decide_eq_true_eq])]
      rfl
    rw [if_neg hhigh, List.takeWhile_cons_of_pos (by simpa only [decide_eq_true_eq])]
    by_cases hskip : seg.stop ≤ r.low ∨ seg.domain ≠ domain
    · rw [if_pos hskip, List.filter_cons_of_neg (by
        rw [decide_eq_true_eq]
        exact fun h => h.1 hskip)]
      exact ih
    rw [if_neg hskip]
    dsimp only
    by_cases hsmall : (if r.high < seg.stop then r.high else seg.stop) -
        (if r.low ≤ seg.start then seg.start else r.low) < ptoa r.npages
    · rw [if_pos hsmall, List.filter_cons_of_neg (by
        rw [decide_eq_true_eq]
        exact fun h => h.2 hsmall)]
      exact ih
    rw [if_neg hsmall, List.filter_cons_of_pos (by
      rw [decide_eq_true_eq]
      exact ⟨hskip, hsmall⟩), List.findSome?_cons, ← allocSegContig_page]
    rcases vmPhysAllocSegContig c seg st r with _ | found
    · exact ih
    · rfl

/-- The page returned is the first fit. -/
theorem vmPhysAllocContig_page (c : Conf) (st : Pages) (r : Request) (domains : List Nat) :
    (vmPhysAllocContig c st r domains).map Prod.fst =
      ((lookedAt c st r domains).find? (fun x => runFits c x.1 st r x.2)).map Prod.snd := by
  unfold vmPhysAllocContig lookedAt
  split
  · rfl
  rw [List.find?_flatMap, List.map_findSome?, List.map_findSome?]
  congr 1
  funext domain
  rw [comp_apply, comp_apply, allocFromSegs_page, List.find?_flatMap, List.map_findSome?]
  congr 1
  funext seg
  rw [comp_apply, List.find?_map, Option.map_map]
  exact Option.map_id_apply.symm

theorem firstFit_of_some {st' : Pages} (hres : vmPhysAllocContig c st r domains = some (m, st')) :
    ∃ seg, FirstFit c st r domains seg m := by
  have hpage := vmPhysAllocContig_page c st r domains
  rw [hres, Option.map_some, eq_comm, Option.map_eq_some_iff] at hpage
  rcases hpage with ⟨⟨seg, m'⟩, hfind, rfl⟩
  exact ⟨seg, firstFit_iff.mpr hfind⟩

theorem some_of_firstFit (hfit : FirstFit c st r domains seg m) :
    ∃ st', vmPhysAllocContig c st r domains = some (m, st') := by
  have hpage := vmPhysAllocContig_page c st r domains
  rw [firstFit_iff.mp hfit, Option.map_some, Option.map_eq_some_iff] at hpage
  rcases hpage with ⟨⟨m', st'⟩, hres, rfl⟩
  exact ⟨st', hres⟩

end firstFit

section addresses

theorem toNat_sub_one {x : Nat} (hpos : 0 < x) (hlt : x < 2 ^ 64) :
    (BitVec.ofNat 64 x - 1).toNat = x - 1 := by
  have hone : (1 : BitVec 64).toNat = 1 := rfl
  rw [BitVec.toNat_sub, BitVec.toNat_ofNat, hone, Nat.mod_eq_of_lt hlt]
  omega

/-- `powerof2` admits zero as well. -/
theorem Powerof2.eq {x : Nat} (h : Powerof2 x) (hx : x < 2 ^ 64) : x = 0 ∨ ∃ k < 64, x = 2 ^ k := by
  by_cases hzero : x = 0
  · exact Or.inl hzero
  have hand : x &&& (x - 1) = 0 := by
    have hnat := congrArg BitVec.toNat h
    rw [BitVec.toNat_and, toNat_sub_one (Nat.pos_of_ne_zero hzero) hx, BitVec.toNat_ofNat,
      Nat.mod_eq_of_lt hx, Nat.and_comm] at hnat
    exact hnat
  rcases (Nat.and_sub_one_eq_zero_iff_isPowerOfTwo hzero).mp hand with ⟨k, rfl⟩
  exact Or.inr ⟨k, (Nat.pow_lt_pow_iff_right (by decide)).mp hx, rfl⟩

theorem dvd_of_mask {pa alignment : Nat} (hpa : pa < 2 ^ 64) (hlt : alignment < 2 ^ 64)
    (hpow : Powerof2 alignment)
    (h : BitVec.ofNat 64 pa &&& (BitVec.ofNat 64 alignment - 1) = 0) : alignment ∣ pa := by
  rcases hpow.eq hlt with rfl | ⟨k, hk, rfl⟩
  · have hall : (BitVec.ofNat 64 0 - 1).toNat = 2 ^ 64 - 1 := by decide
    have hnat := congrArg BitVec.toNat h
    rw [BitVec.toNat_and, BitVec.toNat_ofNat, Nat.mod_eq_of_lt hpa, hall,
      Nat.and_two_pow_sub_one_eq_mod, Nat.mod_eq_of_lt hpa] at hnat
    exact ⟨0, hnat⟩
  have hto : (BitVec.ofNat 64 (2 ^ k)).toNat = 2 ^ k := Nat.mod_eq_of_lt hlt
  have hdvd := (and_sub_one_eq_zero hto).mp h
  rwa [BitVec.toNat_ofNat, Nat.mod_eq_of_lt hpa] at hdvd

theorem no_multiple_of_mask {pa paEnd boundary : Nat} (hpa : pa < 2 ^ 64) (hend : paEnd < 2 ^ 64)
    (hpos : 0 < paEnd) (hlt : boundary < 2 ^ 64) (hpow : Powerof2 boundary) (hne : boundary ≠ 0)
    (h : (BitVec.ofNat 64 pa ^^^ (BitVec.ofNat 64 paEnd - 1)) &&& ~~~ (BitVec.ofNat 64 boundary - 1)
      = 0) (q : Nat) : ¬ (pa < q * boundary ∧ q * boundary < paEnd) := by
  rintro ⟨hq, hq'⟩
  rcases hpow.eq hlt with rfl | ⟨k, hk, rfl⟩
  · exact hne rfl
  have hblock := Nat.two_pow_pos k
  -- The first and the last address are in the same block, and the multiple lies between.
  have hto : (BitVec.ofNat 64 (2 ^ k)).toNat = 2 ^ k := Nat.mod_eq_of_lt hlt
  have hsame := (xor_and_not_eq_zero hto).mp h
  rw [toNat_sub_one hpos hend, BitVec.toNat_ofNat, Nat.mod_eq_of_lt hpa] at hsame
  have hbelow : pa / 2 ^ k < q := (Nat.div_lt_iff_lt_mul hblock).mpr hq
  have habove : q ≤ (paEnd - 1) / 2 ^ k := (Nat.le_div_iff_mul_le hblock).mpr (by omega)
  omega

/-- The addresses of a run that meets the request. -/
theorem runFits_addresses (hn : 0 < r.npages) (hbytes : toPhys (m + r.npages) < 2 ^ 64)
    (hal : r.alignment < 2 ^ 64 ∧ Powerof2 r.alignment)
    (hbd : r.boundary < 2 ^ 64 ∧ Powerof2 r.boundary) (hfits : runFits c seg st r m = true) :
    r.low ≤ toPhys m ∧ toPhys (m + r.npages) ≤ r.high ∧ r.alignment ∣ toPhys m ∧
      (r.boundary ≠ 0 → ∀ q, ¬ (toPhys m < q * r.boundary ∧
        q * r.boundary < toPhys (m + r.npages))) := by
  have hlt : toPhys m < toPhys (m + r.npages) := toPhys_lt.mpr (by omega)
  have hadd := toPhys_add m r.npages
  have hpt : ptoa r.npages = toPhys r.npages := Nat.mod_eq_of_lt (by
    show toPhys r.npages < 2 ^ 64
    omega)
  unfold runFits at hfits
  simp only [decide_eq_true_eq, hpt, ← hadd, Nat.mod_eq_of_lt hbytes] at hfits
  rcases hfits with ⟨-, hlow, hhigh, halign, hbound⟩
  exact ⟨hlow, hhigh, dvd_of_mask (by omega) hal.1 hal.2 halign, fun hne =>
    no_multiple_of_mask (by omega) hbytes (by omega) hbd.1 hbd.2 hne hbound⟩

end addresses

/-- What the pages of a run that was asked for should be. -/
structure RunAsAsked (c : Conf) (st st' : Pages) (r : Request) (m : Nat) : Prop where
  /-- They were free, and they lie side by side at their physical addresses. -/
  free : ∀ i < r.npages, m + i ∈ freePages c st
  consecutive : ∀ i < r.npages, (segOf c (m + i)).Holds (m + i) ∧
    toPhys (m + i) = toPhys m + i * 2 ^ pageShift
  /-- Their addresses are those that were asked for. -/
  low : r.low ≤ toPhys m
  high : toPhys (m + r.npages) ≤ r.high
  aligned : r.alignment ∣ toPhys m
  boundary : r.boundary ≠ 0 → ∀ q, ¬ (toPhys m < q * r.boundary ∧
    q * r.boundary < toPhys (m + r.npages))
  /-- They are the only ones that are no longer free. -/
  taken : freePages c st' = freePages c st \ Set.Ico m (m + r.npages)
  pools : ∀ i < r.npages, st'.pool (m + i) = freepoolDefault

/-- The pages of a run behind its first block of the largest order have the default
    pool. There are none in a run that is not longer than that block. -/
def DefaultBehind (c : Conf) (st : Pages) (m npages : Nat) : Prop :=
  ∀ i, 2 ^ (c.nfreeorder - 1) ≤ i → i < npages → st.pool (m + i) = freepoolDefault

-- Pages that are free lie in segments, so a free run is not longer than those are.
theorem Good.bytes_of_free (h : Good c st F) (hn : 0 < n) (hfree : ∀ i < n, m + i ∈ freePages c st) :
    toPhys n < 2 ^ 64 ∧ toPhys (m + n) < 2 ^ 64 ∧ ∀ i < n, (segOf c (m + i)).Holds (m + i) := by
  have hholds : ∀ i < n, segOf c (m + i) ∈ c.segs ∧ (segOf c (m + i)).Holds (m + i) := by
    intro i hi
    rcases hfree i hi with ⟨b, hle, hlt, hlt'⟩
    have hspan := (h.ok.inside b hlt).holds hle hlt'
    exact ⟨hspan.1, hspan.2.1⟩
  have hlast := hholds (n - 1) (by omega)
  have hstop := (c.seg_pages _ hlast.1).2.2
  have hend : toPhys (m + n) = toPhys (m + (n - 1)) + toPhys 1 := by
    rw [← toPhys_add]
    congr 1
    omega
  have hone : toPhys 1 = 4096 := rfl
  have hadd := toPhys_add m n
  have hlt := hlast.2.2
  exact ⟨by omega, by omega, fun i hi => (hholds i hi).2⟩

theorem Good.asked_iff (h : Good c st F) (hvalid : Valid c st (.allocContig domains r))
    (hal : r.alignment < 2 ^ 64) (hbd : r.boundary < 2 ^ 64) :
    (∀ m st', vmPhysAllocContig c st r domains = some (m, st') → RunAsAsked c st st' r m) ↔
      ∀ seg m, FirstFit c st r domains seg m →
        toPhys r.npages < 2 ^ 64 ∧ DefaultBehind c st m r.npages := by
  rcases hvalid with ⟨hn, _, hpal, hpbd⟩
  constructor
  · intro hasked seg m hfit
    rcases some_of_firstFit hfit with ⟨st', hres⟩
    have hrun := hasked m st' hres
    have hbytes := (h.bytes_of_free hn hrun.free).1
    refine ⟨hbytes, fun i hle hlt => ?_⟩
    have hpool := (vmPhysAllocContig_taken h hn hbytes hres).pools (m + i) ⟨by omega, by omega⟩
    rw [if_neg (by omega), hrun.pools i hlt] at hpool
    exact hpool.symm
  intro hcond m st' hres
  rcases firstFit_of_some hres with ⟨seg, hfit⟩
  rcases hcond seg m hfit with ⟨hbytes, hbehind⟩
  have htaken := vmPhysAllocContig_taken h hn hbytes hres
  have hfree : ∀ i < r.npages, m + i ∈ freePages c st := by
    intro i hi
    rw [h.free]
    exact htaken.taken.1 ⟨by omega, by omega⟩
  rcases h.bytes_of_free hn hfree with ⟨_, hend, hholds⟩
  rcases hfit with ⟨_, _, _, _, hfits⟩
  rcases runFits_addresses hn hend ⟨hal, hpal⟩ ⟨hbd, hpbd⟩ hfits with
    ⟨hlow, hhigh, haligned, hboundary⟩
  refine ⟨hfree, fun i hi => ⟨hholds i hi, ?_⟩, hlow, hhigh, haligned, hboundary, ?_, ?_⟩
  · rw [toPhys_add, toPhys_eq i]
  · rw [h.free]
    exact htaken.taken.2.free
  intro i hi
  rw [htaken.pools (m + i) ⟨by omega, by omega⟩]
  split
  case isTrue => rfl
  case isFalse hout => exact hbehind i (by omega) hi

/-- After every run of proper operations, the run a valid request returns is what was
    asked for exactly if the length of the request is a word and the pages of the first
    fit behind its first block have the default pool. -/
theorem contig_run (c : Conf) (ops : List Op)
    (hops : EveryStep (next c) (Proper c) (vmPhysInit c) ops) :
    ∃ st, runOps (next c) (vmPhysInit c) ops = some st ∧
      ∀ (domains : List Nat) (r : Request), Valid c st (.allocContig domains r) →
        r.alignment < 2 ^ 64 → r.boundary < 2 ^ 64 →
        ((∀ m st', vmPhysAllocContig c st r domains = some (m, st') → RunAsAsked c st st' r m) ↔
          ∀ seg m, FirstFit c st r domains seg m →
            toPhys r.npages < 2 ^ 64 ∧ DefaultBehind c st m r.npages) := by
  rcases run_good c ops hops with ⟨st, hrun, F, hgood⟩
  exact ⟨st, hrun, fun domains r hvalid hal hbd => hgood.asked_iff hvalid hal hbd⟩

/-- Two pages are freed, and a run of one of them is asked for. -/
theorem contig_run_sixteen :
    EveryStep (next sixteenPages) (Proper sixteenPages) (vmPhysInit sixteenPages)
      [.freeContig 17 7] ∧
    ∃ st, runOps (next sixteenPages) (vmPhysInit sixteenPages) [.freeContig 17 7] = some st ∧
      ∀ (domains : List Nat) (r : Request), Valid sixteenPages st (.allocContig domains r) →
        r.alignment < 2 ^ 64 → r.boundary < 2 ^ 64 →
        ((∀ m st', vmPhysAllocContig sixteenPages st r domains = some (m, st') →
          RunAsAsked sixteenPages st st' r m) ↔ ∀ seg m, FirstFit sixteenPages st r domains seg m →
            toPhys r.npages < 2 ^ 64 ∧ DefaultBehind sixteenPages st m r.npages) := by
  have hops : EveryStep (next sixteenPages) (Proper sixteenPages) (vmPhysInit sixteenPages)
      [.freeContig 17 7] := by
    decide
  exact ⟨hops, contig_run sixteenPages _ hops⟩

section twoBlocks

/-- An amd64 machine with two blocks of the largest order. -/
def twoBlocks : Conf where
  nfreeorder := 13
  nfreepool := 2
  nfreelists := 1
  segs := [⟨8192 <<< 12, 16384 <<< 12, 0, 0⟩]
  order_pos := oneBlock.order_pos
  order_le := oneBlock.order_le
  seg_pages := by decide
  seg_sorted := by decide

/-- The upper block is free, and so is the lower one. -/
def upperFree : Pages := vmFreelistAdd (vmPhysInit twoBlocks) ⟨0, 0, 0⟩ 12288 12 true

def bothFree : Pages := vmFreelistAdd upperFree ⟨0, 0, 0⟩ 8192 12 true

/-- The upper block is taken for the other pool, and it is given back. -/
def upperTaken : Pages :=
  vmPhysSetPool 1 (vmFreelistRem twoBlocks bothFree ⟨0, 0, 0⟩ 12288 12) 12288 12

def twoPools : Pages := vmFreelistAdd upperTaken ⟨0, 0, 1⟩ 12288 12 true

-- A block that may enter its queue may be freed.
theorem Good.proper_freePages {k : Nat} (h : Good c st F) (hm : Loose c st F m k) :
    Proper c st (.freePages m k) := by
  refine ⟨⟨hm.lt, hm.inSeg, fun i hi => ?_⟩, hm.dvd, fun i hi j hj _ => ?_⟩
  · rw [h.free]
    exact Set.disjoint_left.mp hm.disjoint ⟨by omega, by omega⟩
  · rw [hm.onePool (m + i) ⟨by omega, by omega⟩, hm.onePool (m + j) ⟨by omega, by omega⟩]

theorem twoPools_reached : EveryStep (next twoBlocks) (Proper twoBlocks) (vmPhysInit twoBlocks)
      [.freePages 12288 12, .freePages 8192 12, .allocPages [0] 1 12, .freePages 12288 12] ∧
    runOps (next twoBlocks) (vmPhysInit twoBlocks)
      [.freePages 12288 12, .freePages 8192 12, .allocPages [0] 1 12, .freePages 12288 12] =
        some twoPools ∧
    ∃ F, Good twoBlocks twoPools F := by
  have hfar : Disjoint (Set.Ico 8192 (8192 + 2 ^ 12)) (Set.Ico 12288 (12288 + 2 ^ 12)) := by
    refine Set.disjoint_left.mpr (fun p hp hp' => ?_)
    have h₁ := hp.2
    have h₂ := hp'.1
    omega
  have hinit := vmPhysInit_good twoBlocks
  have hupper : Loose twoBlocks (vmPhysInit twoBlocks) ∅ 12288 12 :=
    ⟨by decide, by decide, by decide, Set.disjoint_empty _, fun _ _ => rfl⟩
  have hupperFree : Good twoBlocks upperFree (∅ ∪ Set.Ico 12288 (12288 + 2 ^ 12)) :=
    (vmPhysFreePages_good hinit hupper).1
  have hlower : Loose twoBlocks upperFree (∅ ∪ Set.Ico 12288 (12288 + 2 ^ 12)) 8192 12 :=
    ⟨by decide, by decide, by decide, by rwa [Set.empty_union], fun _ _ => rfl⟩
  have hbothFree : Good twoBlocks bothFree (∅ ∪ Set.Ico 12288 (12288 + 2 ^ 12) ∪
      Set.Ico 8192 (8192 + 2 ^ 12)) := (vmPhysFreePages_good hupperFree hlower).1
  have halloc : Proper twoBlocks bothFree (.allocPages [0] 1 12) := ⟨⟨by decide, by decide⟩, trivial⟩
  have htaken : Taken twoBlocks upperTaken _ 12288 (2 ^ 12) :=
    @vmPhysAllocPages_spec twoBlocks bothFree _ 1 12 hbothFree (freelists twoBlocks [0])
  have hagain := fun F : Set Nat => (show Loose twoBlocks upperTaken
      (F \ Set.Ico 12288 (12288 + 2 ^ 12)) 12288 12 by
    refine ⟨by decide, by decide, by decide, Set.disjoint_sdiff_right, fun p hp => ?_⟩
    exact (setPool_of_mem hp).trans (setPool_of_mem ⟨by omega, by omega⟩).symm)
  have h₁ : next twoBlocks (vmPhysInit twoBlocks) (.freePages 12288 12) = some upperFree := rfl
  have h₂ : next twoBlocks upperFree (.freePages 8192 12) = some bothFree := rfl
  have h₃ : next twoBlocks bothFree (.allocPages [0] 1 12) = some upperTaken := rfl
  have h₄ : next twoBlocks upperTaken (.freePages 12288 12) = some twoPools := rfl
  have hpools : Good twoBlocks twoPools _ := (vmPhysFreePages_good htaken.2 (hagain _)).1
  refine ⟨⟨hinit.proper_freePages hupper, fun st hst => ?_⟩, ?_, _, hpools⟩
  · rw [h₁, Option.mem_some_iff] at hst
    subst hst
    refine ⟨hupperFree.proper_freePages hlower, fun st hst => ?_⟩
    rw [h₂, Option.mem_some_iff] at hst
    subst hst
    refine ⟨halloc, fun st hst => ?_⟩
    rw [h₃, Option.mem_some_iff] at hst
    subst hst
    exact ⟨htaken.2.proper_freePages (hagain _), fun _ _ => trivial⟩
  · rw [runOps_cons, h₁, Option.bind_some, runOps_cons, h₂, Option.bind_some, runOps_cons, h₃,
      Option.bind_some, runOps_cons, h₄, Option.bind_some, runOps_nil]

/-- A run of one page more than the largest block has gets its last page from the
    second block, and that page keeps its pool. -/
theorem second_block_pool : EveryStep (next twoBlocks) (Proper twoBlocks) (vmPhysInit twoBlocks)
      [.freePages 12288 12, .freePages 8192 12, .allocPages [0] 1 12, .freePages 12288 12] ∧
    ∃ st, runOps (next twoBlocks) (vmPhysInit twoBlocks)
        [.freePages 12288 12, .freePages 8192 12, .allocPages [0] 1 12, .freePages 12288 12] =
          some st ∧
      Valid twoBlocks st (.allocContig [0] ⟨4097, 0, 2 ^ 40, 1, 0⟩) ∧
      ∃ st', vmPhysAllocContig twoBlocks st ⟨4097, 0, 2 ^ 40, 1, 0⟩ [0] = some (8192, st') ∧
        st'.pool (8192 + 4096) = 1 ∧ ¬ RunAsAsked twoBlocks st st' ⟨4097, 0, 2 ^ 40, 1, 0⟩ 8192 := by
  rcases twoPools_reached with ⟨hops, hrun, F, hgood⟩
  have hlooked : lookedAt twoBlocks twoPools ⟨4097, 0, 2 ^ 40, 1, 0⟩ [0] =
      [(⟨8192 <<< 12, 16384 <<< 12, 0, 0⟩, 8192), (⟨8192 <<< 12, 16384 <<< 12, 0, 0⟩, 12288)] := by
    decide
  have hfits : runFits twoBlocks ⟨8192 <<< 12, 16384 <<< 12, 0, 0⟩ twoPools
      ⟨4097, 0, 2 ^ 40, 1, 0⟩ 8192 = true := by
    decide
  rcases some_of_firstFit ⟨[], _, hlooked, fun _ hx => absurd hx List.not_mem_nil, hfits⟩ with
    ⟨st', hres⟩
  have htaken := vmPhysAllocContig_taken hgood (by decide) (by decide) hres
  have hpool : st'.pool (8192 + 4096) = 1 := by
    rw [htaken.pools (8192 + 4096) ⟨by decide, by decide⟩, if_neg (by decide)]
    decide
  refine ⟨hops, twoPools, hrun, by decide, st', hres, hpool, fun h => ?_⟩
  have hdefault := h.pools 4096 (by decide)
  rw [hpool] at hdefault
  exact absurd hdefault (by decide)

end twoBlocks

end FreeBSDKern.Phys
