import FreeBSDKern.Swap.Refine

/-!
# Swap Devices

The devices over which `swap_pager.c` spreads its blocks. Each one has a block list
of its own, counted from zero, and a range of block numbers that are common to all of
them. `swaponsomething` adds a device behind the others, `swapoff_one` closes it, fills
its block list, and takes it away when nothing is left on it. In between blocks are
allocated on the devices in turn, and freed.

`swap_pager_avail` is to count the free blocks of the devices that are not closing.
The first two blocks of a device are never freed, but `swaponsomething` counts them all
the same, so the count is wrong from the first device on, and stays so
(`avail_exact_iff`).

A device is known by a number. The size of a device comes in sectors, as the caller
gives it, and the memory of its block list as it is found. `none` is a panic, or a call
that is not made: a device is closed once, and has two pages at least.

## Main definitions

* `Swdevt`, `Pager`: A device, and what is known of all of them.
* `getswapspace`, `freeswapspace`: Allocation and release.
* `swaponsomething`, `swapoffClose`, `swapoffRemove`: A device comes and goes.
* `Exact`, `FillsInside`: What the books should say.

## Theorems

* `swapon_counts_all`: The first device makes the count too large.
* `avail_exact_iff`: The count is right in a run if and only if there is no device in it.
-/

namespace FreeBSDKern.Swap

open Lib

/-- `dmmax`. -/
def dmmax : Nat := 32

structure Swdevt where
  id : Nat
  swFirst : Nat
  swEnd : Nat
  swNblks : Nat
  swUsed : Int
  /-- `SW_CLOSING`. -/
  closing : Bool
  swBlist : Blist

structure Pager where
  swtailq : List Swdevt
  /-- The device that is asked first for the next block. -/
  swdevhd : Option Nat
  /-- `swap_pager_avail`. -/
  avail : Int

def noSwap : Pager := ⟨[], none, 0⟩

def Pager.device (s : Pager) (id : Nat) : Option Swdevt := s.swtailq.find? (fun d => d.id = id)

/-- `TAILQ_NEXT`. -/
def Pager.after (s : Pager) (id : Nat) : Option Nat :=
  ((s.swtailq.dropWhile (fun d => d.id ≠ id)).tail.head?).map (fun d => d.id)

def Pager.setDevice (s : Pager) (d : Swdevt) : Pager :=
  { s with swtailq := s.swtailq.map (fun e => if e.id = d.id then d else e) }

/-- The loop of `swp_pager_getswapspace`, at the device `sp`. -/
def getLoop (npages : Nat) : Nat → Option Nat → Pager → Option (Option Nat × Pager)
  | 0, _, s => some (none, { s with swdevhd := none })
  | fuel + 1, sp, s =>
    match (sp.or (s.swtailq.head?.map (fun d => d.id))).bind s.device with
    | none => none
    | some d =>
      if d.closing then getLoop npages fuel (s.after d.id) s
      else
        match blistAlloc d.swBlist npages with
        | none => none
        | some (none, bl) =>
          getLoop npages fuel (s.after d.id) (s.setDevice { d with swBlist := bl })
        | some (some blk, bl) =>
          some (some (blk + d.swFirst),
            { s.setDevice { d with swBlist := bl, swUsed := d.swUsed + npages } with
              swdevhd := s.after d.id, avail := s.avail - npages })

def getswapspace (s : Pager) (npages : Nat) : Option (Option Nat × Pager) :=
  getLoop npages s.swtailq.length s.swdevhd s

/-- `swp_pager_isondev`. -/
def isondev (blk : Nat) (d : Swdevt) : Bool := d.swFirst ≤ blk ∧ blk < d.swEnd

def freeswapspace (s : Pager) (blk npages : Nat) : Option Pager :=
  match s.swtailq.find? (isondev blk) with
  | none => none
  | some d =>
    if d.closing then some (s.setDevice { d with swUsed := d.swUsed - npages })
    else
      (blistFree d.swBlist (blk - d.swFirst) npages).map (fun bl =>
        { s.setDevice { d with swBlist := bl, swUsed := d.swUsed - npages } with
          avail := s.avail + npages })

/-- The most pages on a device, `mblocks`. -/
def mblocks : Nat := 0x40000000 / metaRadix

/-- The pages of a device of so many sectors. -/
def devicePages (nblks : Nat) : Nat := min (nblks / 8) mblocks

/-- Where the blocks of a new device begin, behind those of the others. -/
def dvbase (tsps : List Swdevt) : Nat :=
  tsps.foldl (fun base tsp => if tsp.swEnd ≥ base then tsp.swEnd + 1 else base) 0

def swaponsomething (s : Pager) (id nblks : Nat) (m : Mem) : Option Pager :=
  let pages := devicePages nblks
  if pages < 2 ∨ (s.device id).isSome then none
  else
    (blistFree (blistCreate pages m) 2 (pages - 2)).map (fun bl =>
      { s with
        swtailq := s.swtailq ++
          [⟨id, dvbase s.swtailq, dvbase s.swtailq + pages, pages, 0, false, bl⟩]
        avail := s.avail + pages })

/-- The ranges that `swapoff_one` gives to `blist_fill`. -/
def fillRanges (d : Swdevt) : List (Nat × Nat) :=
  (List.range ((d.swEnd + dmmax - 1) / dmmax)).map (fun k => (k * dmmax, dmmax))

/-- The loop over them, with the block list and `swap_pager_avail`. -/
def fillDevice : List (Nat × Nat) → Blist → Int → Option (Blist × Int)
  | [], bl, avail => some (bl, avail)
  | r :: rs, bl, avail =>
    match blistFill bl r.1 r.2 with
    | none => none
    | some (filled, bl) => fillDevice rs bl (avail - filled)

def nswapLowat : Nat := 128

/-- `swapoff_one`, up to the point where the pages on the device are read back. There are
    `memory` pages of memory to be had. -/
def swapoffClose (s : Pager) (id memory : Nat) : Option Pager :=
  match s.device id with
  | none => none
  | some d =>
    if d.closing then none
    else if (memory : Int) + s.avail < d.swNblks + nswapLowat then some s
    else
      (fillDevice (fillRanges d) d.swBlist s.avail).map (fun r =>
        { s.setDevice { d with closing := true, swBlist := r.1 } with avail := r.2 })

/-- The rest of `swapoff_one`, when the device is no longer used. -/
def swapoffRemove (s : Pager) (id : Nat) : Option Pager :=
  match s.device id with
  | none => none
  | some d =>
    if d.closing = false ∨ d.swUsed ≠ 0 then none
    else
      some { s with
        swtailq := s.swtailq.filter (fun e => e.id ≠ id)
        swdevhd := if s.swdevhd = some id then none else s.swdevhd }

inductive DevOp where
  | swapon (id nblks : Nat) (m : Mem)
  | close (id memory : Nat)
  | remove (id : Nat)
  | get (npages : Nat)
  | free (blk npages : Nat)

def devStep (s : Pager) : DevOp → Option Pager
  | .swapon id nblks m => swaponsomething s id nblks m
  | .close id memory => swapoffClose s id memory
  | .remove id => swapoffRemove s id
  | .get npages => (getswapspace s npages).map Prod.snd
  | .free blk npages => freeswapspace s blk npages

/-- The free blocks of the devices that are not closing. -/
def freeBlocks (s : Pager) : Nat :=
  ((s.swtailq.filter (fun d => !d.closing)).map (fun d => (freeSet d.swBlist).card)).sum

/-- `swap_pager_avail` is right. -/
def Exact (s : Pager) : Prop := s.avail = freeBlocks s

/-- The ranges that a step fills are on the device. -/
def FillsInside (s : Pager) : DevOp → Prop
  | .close id _ => ∀ d ∈ s.swtailq, d.id = id → ∀ r ∈ fillRanges d, r.1 + r.2 ≤ d.swNblks
  | _ => True

def DevOp.isSwapon : DevOp → Bool
  | .swapon _ _ _ => true
  | _ => false

/-- There is no device. -/
def Bare (s : Pager) : Prop := s.swtailq = [] ∧ s.avail = 0

theorem Bare.exact {s : Pager} (h : Bare s) : Exact s := by
  rw [Exact, freeBlocks, h.1, h.2]
  rfl

theorem Bare.fillsInside {s : Pager} (h : Bare s) (op : DevOp) : FillsInside s op := by
  cases op with
  | close id memory =>
    intro d hd
    rw [h.1] at hd
    exact absurd hd List.not_mem_nil
  | _ => trivial

/-- Without a device nothing can be taken or given back. -/
theorem Bare.step {s s' : Pager} (h : Bare s) {op : DevOp} (hop : op.isSwapon = false)
    (hs : devStep s op = some s') : Bare s' := by
  have hno : ∀ id, s.device id = none := fun id => by rw [Pager.device, h.1]; rfl
  cases op with
  | swapon id nblks m => exact (Bool.false_ne_true hop.symm).elim
  | close id memory =>
    rw [devStep, swapoffClose, hno] at hs
    cases hs
  | remove id =>
    rw [devStep, swapoffRemove, hno] at hs
    cases hs
  | get npages =>
    rw [devStep, getswapspace, h.1] at hs
    obtain rfl := Option.some.inj hs
    exact h
  | free blk npages =>
    rw [devStep, freeswapspace, h.1] at hs
    cases hs

/-- The free blocks of a new device. -/
theorem fresh_free {pages : Nat} (hpages : 2 ≤ pages) {m : Mem} {bl : Blist}
    (hbl : blistFree (blistCreate pages m) 2 (pages - 2) = some bl) :
    (freeSet bl).card = pages - 2 := by
  rcases Nat.eq_or_lt_of_le hpages with rfl | hlt
  · -- Nothing is freed, and the only leaf is as it was.
    have hrun : blistFree (blistCreate 2 m) 2 (2 - 2) = some { blistCreate 2 m with
          free := 0
          root := Function.update (blistCreate 2 m).root 0 ⟨(m 0).avail, 0, bmapRadix⟩ } := by
      simp [blistFree, blistCreate, createLoop, blstRadixInit, blstFree, blstLeafFree, rangeMask,
        bmapRadix, radix]
    obtain rfl := Option.some.inj (hbl.symm.trans hrun)
    rw [Nat.sub_self, Finset.card_eq_zero, freeSet, Finset.filter_eq_empty_iff]
    intro i _
    simp [isFree, blistCreate, createLoop, bmapRadix, radix]
  rcases blistCreate_ok False pages (by omega) m with ⟨hok, hempty⟩
  rcases blistFree_spec hok (show 1 ≤ pages - 2 by omega)
    (show 2 + (pages - 2) ≤ pages by omega) (by rw [hempty]; exact Finset.disjoint_empty_left _)
    (fun hno => hno.elim) with ⟨bl', hrun, -, -, hset⟩
  obtain rfl := Option.some.inj (hbl.symm.trans hrun)
  have hset : freeSet bl = freeSet (blistCreate pages m) ∪ Finset.Ico 2 (2 + (pages - 2)) := hset
  rw [hset, hempty, Finset.empty_union, Nat.card_Ico]
  omega

theorem swapon_counts_all {s s' : Pager} (h : Bare s) {id nblks : Nat} {m : Mem}
    (hs : swaponsomething s id nblks m = some s') : s'.avail = freeBlocks s' + 2 := by
  unfold swaponsomething at hs
  dsimp only at hs
  split at hs
  case isTrue => cases hs
  case isFalse hok =>
  rcases Option.map_eq_some_iff.mp hs with ⟨bl, hbl, rfl⟩
  have hcard := fresh_free (by omega) hbl
  rw [freeBlocks, h.1, h.2]
  show (0 : Int) + devicePages nblks = ((freeSet bl).card + 0 : Nat) + 2
  omega

/-- In a run from the start `swap_pager_avail` is right in every state, and every range
    that is filled is on its device, if and only if no device is ever added. -/
theorem avail_exact_iff (ops : List DevOp) (t : Pager) (hrun : runOps devStep noSwap ops = some t) :
    EveryStep devStep (fun s op => Exact s ∧ FillsInside s op) noSwap ops ∧ Exact t ↔
      ∀ op ∈ ops, op.isSwapon = false := by
  have hbare : Bare noSwap := ⟨rfl, rfl⟩
  generalize noSwap = s at hrun hbare ⊢
  induction ops generalizing s with
  | nil =>
    obtain rfl := Option.some.inj hrun
    exact ⟨fun _ => nofun, fun _ => ⟨trivial, hbare.exact⟩⟩
  | cons op ops ih =>
    rw [runOps_cons] at hrun
    rcases Option.bind_eq_some_iff.mp hrun with ⟨s', hs, hrun'⟩
    have hhead : EveryStep devStep (fun s op => Exact s ∧ FillsInside s op) s (op :: ops) ↔
        EveryStep devStep (fun s op => Exact s ∧ FillsInside s op) s' ops := by
      constructor
      · intro h
        exact h.2 s' hs
      intro h
      refine ⟨⟨hbare.exact, hbare.fillsInside op⟩, fun u hu => ?_⟩
      obtain rfl := Option.some.inj (hs.symm.trans hu)
      exact h
    rw [hhead, List.forall_mem_cons]
    cases hop : op.isSwapon with
    | false => exact (ih s' hrun' (hbare.step hop hs)).trans (and_iff_right rfl).symm
    | true =>
      refine ⟨fun h => ?_, fun h => absurd h.1 (by decide)⟩
      -- The state behind the step is wrong, whether the run goes on or not.
      have hexact : Exact s' := by
        cases ops with
        | nil =>
          obtain rfl := Option.some.inj hrun'
          exact h.2
        | cons op' ops => exact h.1.1.1
      cases op with
      | swapon id nblks m =>
        have hwrong := swapon_counts_all hbare hs
        rw [Exact] at hexact
        omega
      | _ => exact (Bool.false_ne_true hop).elim

/-- An example: with one device, and a block allocated on it. -/
theorem avail_exact_iff_one :
    ∃ t, runOps devStep noSwap [.swapon 0 320 (fun _ => ⟨0, 0, 0⟩), .get 1] = some t ∧
      ¬ (EveryStep devStep (fun s op => Exact s ∧ FillsInside s op) noSwap
        [.swapon 0 320 (fun _ => ⟨0, 0, 0⟩), .get 1] ∧ Exact t) := by
  refine ⟨_, rfl, fun h => ?_⟩
  have hno := (avail_exact_iff [.swapon 0 320 (fun _ => ⟨0, 0, 0⟩), .get 1] _ rfl).mp h
  exact Bool.false_ne_true (hno _ List.mem_cons_self).symm

/-- A device of forty pages has thirty-eight free blocks, and forty are counted; of the
    ranges that are filled when it is closed the second goes past its end. -/
theorem avail_counts_label :
    ∃ s t : Pager, runOps devStep noSwap [.swapon 0 320 (fun _ => ⟨0, 0, 0⟩)] = some s ∧
      s.avail = 40 ∧ freeBlocks s = 38 ∧ ¬ FillsInside s (.close 0 1000) ∧
      devStep s (.close 0 1000) = some t := by
  refine ⟨_, _, rfl, by decide, by decide, fun h => ?_, rfl⟩
  exact absurd (h _ (List.mem_singleton.mpr rfl) rfl (32, 32) (by decide))
    (by decide)

end FreeBSDKern.Swap
