import FreeBSDKern.Lib.Run
import FreeBSDKern.Swap.Fill

/-!
# The Block List as a Set of Free Blocks

What the list is for: a set of free block numbers, from which an allocation
takes some run, to which a free adds its range and from which a fill takes its
range. `SetStep` says so without mentioning the tree. A run of the list begins
with a fresh list over memory of any content, and every step of it is one of the
three operations with arguments the callers may pass.

The tree keeps up with the set in every run, its counts are right wherever it is
read, and none of its panics is reached.

## Main definitions

* `Op`, `Answer`, `exec`: The operations.
* `Valid`: What callers may ask for in a state.
* `SetStep`: What the operations do to the set of free blocks.
* `Live`: The nodes through which the tree is read.
* `Accounted`: All counts are right.
* `Ok`: The invariant of the tree.

## Theorems

* `exec_spec`: One operation.
* `blist_refines_free_set`: Any run.
-/

namespace FreeBSDKern.Swap

open Lib

inductive Op where
  | alloc (count : Nat)
  | free (blkno count : Nat)
  | fill (blkno count : Nat)
deriving DecidableEq, Repr

inductive Answer where
  | block (blkno : Option Nat)
  | done
  | filled (nblks : Nat)
deriving DecidableEq, Repr

def exec (bl : Blist) : Op → Option (Answer × Blist)
  | .alloc count => (blistAlloc bl count).map (fun r => (.block r.1, r.2))
  | .free blkno count => (blistFree bl blkno count).map (fun bl => (.done, bl))
  | .fill blkno count => (blistFill bl blkno count).map (fun r => (.filled r.1, r.2))

/-- The state behind an operation. -/
def next (bl : Blist) (op : Op) : Option Blist := (exec bl op).map Prod.snd

/-- What callers may ask for: an allocation that fits a leaf, the free of a range
    that is allocated and inside the list, the fill of a range inside a leaf. -/
def Valid (bl : Blist) : Op → Prop
  | .alloc count => 1 ≤ count ∧ count ≤ bmapRadix
  | .free blkno count => 1 ≤ count ∧ blkno + count ≤ bl.blocks ∧
      Disjoint (freeSet bl) (Finset.Ico blkno (blkno + count))
  | .fill blkno count => 1 ≤ count ∧ blkno % bmapRadix + count ≤ bmapRadix ∧
      blkno / bmapRadix * bmapRadix < bl.blocks

instance Valid.decidable (bl : Blist) : ∀ op, Decidable (Valid bl op)
  | .alloc count => inferInstanceAs (Decidable (1 ≤ count ∧ count ≤ bmapRadix))
  | .free blkno count => inferInstanceAs (Decidable (1 ≤ count ∧ blkno + count ≤ bl.blocks ∧
      Disjoint (freeSet bl) (Finset.Ico blkno (blkno + count))))
  | .fill blkno count => inferInstanceAs (Decidable (1 ≤ count ∧
      blkno % bmapRadix + count ≤ bmapRadix ∧ blkno / bmapRadix * bmapRadix < bl.blocks))

/-- What the operations do to the set of free blocks. -/
def SetStep (s : Finset Nat) : Op → Answer → Finset Nat → Prop
  | .alloc _, .block none, s' => s' = s
  | .alloc count, .block (some b), s' =>
    Finset.Ico b (b + count) ⊆ s ∧ s' = s \ Finset.Ico b (b + count)
  | .free blkno count, .done, s' => s' = s ∪ Finset.Ico blkno (blkno + count)
  | .fill blkno count, .filled nblks, s' => s' = s \ Finset.Ico blkno (blkno + count) ∧
      nblks = (s ∩ Finset.Ico blkno (blkno + count)).card
  | _, _, _ => False

/-- The nodes through which the tree is read, with their height, their place and
    their first block: the root, and the subtrees of a node that is not
    collapsed. -/
inductive Live (bl : Blist) : Nat → Nat → Nat → Prop where
  | root : Live bl bl.height 0 0
  | sub {d p b k : Nat} (hp : Live bl (d + 1) p b) (hpos : 0 < (bl.root p).avail)
      (hlt : (bl.root p).avail < radix (d + 1)) (hk : k < metaRadix)
      (hin : b + k * radix d < bl.blocks) : Live bl d (child p d k) (b + k * radix d)

/-- All counts are right. -/
structure Accounted (bl : Blist) : Prop where
  free : bl.free = (freeSet bl).card
  avail : ∀ d p b, Live bl (d + 1) p b →
    (bl.root p).avail = (freeSet bl ∩ Finset.Ico b (b + radix (d + 1))).card

/-- The invariant of the tree. Hints count where `H` says so. -/
structure Ok (H : Prop) (bl : Blist) : Prop where
  pos : 0 < bl.blocks
  fits : bl.blocks ≤ radix bl.height
  shape : Shape bl.root bl.height 0 bl.blocks
  node : NodeOk H bl.root bl.height 0 bl.blocks (isFree bl.root bl.height 0)
  free : bl.free = cnt bl.blocks (isFree bl.root bl.height 0)

theorem card_freeSet (bl : Blist) :
    (freeSet bl).card = cnt bl.blocks (isFree bl.root bl.height 0) := by
  rw [cnt, Nat.count_eq_card_filter_range, freeSet]

variable {bl : Blist} {H : Prop} {count : Nat}

theorem mem_freeSet {i : Nat} :
    i ∈ freeSet bl ↔ i < bl.blocks ∧ isFree bl.root bl.height 0 i = true := by
  rw [freeSet, Finset.mem_filter, Finset.mem_range]

/-- The list after an operation on its tree. -/
theorem Ok.of_within (h : Ok H bl) (free : Nat) {m : Mem} {G : Nat → Bool}
    (hw : Within bl.root m bl.height 0 bl.blocks) (hnode : NodeOk H m bl.height 0 bl.blocks G)
    (hfree : free = cnt bl.blocks G) : Ok H { bl with root := m, free := free } ∧
      ∀ i, i ∈ freeSet { bl with root := m, free := free } ↔ i < bl.blocks ∧ G i = true := by
  have hread := isFree_of_nodeOk bl.height h.fits hnode
  refine ⟨⟨h.pos, h.fits, hw.2, ?_, ?_⟩, fun i => ?_⟩
  · exact hnode.congr bl.height h.fits (fun _ _ _ => rfl) hread
  · exact hfree.trans (cnt_congr bl.blocks _ _ (fun i hi => (hread i hi).symm))
  rw [mem_freeSet]
  refine and_congr_right (fun hi => ?_)
  rw [← hread i hi]

theorem blistCreate_ok (H : Prop) (blocks : Nat) (hpos : 1 ≤ blocks) (m : Mem) :
    Ok H (blistCreate blocks m) ∧ freeSet (blistCreate blocks m) = ∅ := by
  have hfits : blocks ≤ radix (createLoop blocks blocks 0) :=
    radix_createLoop blocks blocks 0 (by omega)
  have hnode := blstRadixInit_spec H _ m 0 blocks hpos hfits
  have hread := isFree_of_nodeOk _ hfits hnode
  refine ⟨⟨hpos, hfits, (blstRadixInit_shape _ m 0 blocks hpos hfits).2, ?_, ?_⟩, ?_⟩
  · exact hnode.congr _ hfits (fun _ _ _ => rfl) hread
  · exact (cnt_const_false blocks).symm.trans
      (cnt_congr blocks _ _ (fun i hi => (hread i hi).symm))
  rw [freeSet, Finset.filter_eq_empty_iff]
  intro i hi
  have := hread i (Finset.mem_range.mp hi)
  rw [Bool.not_eq_true]
  exact this

theorem inRange_iff (a count i : Nat) :
    inRange a count i = true ↔ i ∈ Finset.Ico a (a + count) := by
  rw [inRange, decide_eq_true_eq, Finset.mem_Ico]

/-- The free blocks without a range. -/
theorem freeSet_without {bl' : Blist} {a : Nat} (h : ∀ i, i ∈ freeSet bl' ↔ i < bl.blocks ∧
      without (isFree bl.root bl.height 0) a count i = true) :
    freeSet bl' = freeSet bl \ Finset.Ico a (a + count) := by
  ext i
  rw [h, Finset.mem_sdiff, mem_freeSet, without, Bool.and_eq_true, Bool.not_eq_true', and_assoc,
    ← inRange_iff, Bool.not_eq_true]

theorem blistAlloc_spec (h : Ok H bl) (hpos : 1 ≤ count) (hle : count ≤ bmapRadix) :
    ∃ r bl', blistAlloc bl count = some (r, bl') ∧ Ok H bl' ∧ bl'.blocks = bl.blocks ∧
      SetStep (freeSet bl) (.alloc count) (.block r) (freeSet bl') ∧
      (H → r = none → ¬ HasRun bl.blocks (isFree bl.root bl.height 0) count) := by
  rcases blstAlloc_spec hpos hle bl.height bl.root 0 bl.blocks 0 _ h.pos h.fits h.shape h.node with
    ⟨r, m, hrun, hw, hres⟩
  unfold blistAlloc
  rw [hrun]
  cases r with
  | none =>
    rcases h.of_within bl.free hw hres.1 h.free with ⟨hok, hset⟩
    refine ⟨none, _, rfl, hok, rfl, ?_, fun hH _ => hres.2 hH⟩
    change freeSet { bl with root := m } = freeSet bl
    ext i
    rw [hset i, mem_freeSet]
  | some b =>
    rcases hres with ⟨a, hb, han, -, hF, hnode⟩
    rw [Nat.zero_add] at hb
    subst hb
    rcases h.of_within (bl.free - count) hw hnode (by
      rw [cnt_without _ _ _ _ han hF, h.free]) with ⟨hok, hset⟩
    refine ⟨some b, _, rfl, hok, rfl, ⟨fun i hi => ?_, freeSet_without hset⟩,
      nofun⟩
    rw [Finset.mem_Ico] at hi
    exact mem_freeSet.mpr ⟨by omega, hF i hi.1 hi.2⟩

theorem blistFree_spec (h : Ok H bl) {blkno : Nat} (hpos : 1 ≤ count)
    (hin : blkno + count ≤ bl.blocks)
    (hdis : Disjoint (freeSet bl) (Finset.Ico blkno (blkno + count)))
    (hsafe : H → FreeSafe bl.root bl.height 0 blkno count) :
    ∃ bl', blistFree bl blkno count = some bl' ∧ Ok H bl' ∧ bl'.blocks = bl.blocks ∧
      SetStep (freeSet bl) (.free blkno count) .done (freeSet bl') := by
  -- The range is allocated.
  have hF : ∀ i, blkno ≤ i → i < blkno + count → isFree bl.root bl.height 0 i = false := by
    intro i hi hlt
    by_contra hc
    rw [Bool.not_eq_false] at hc
    exact Finset.disjoint_left.mp hdis (mem_freeSet.mpr ⟨by omega, hc⟩)
      (Finset.mem_Ico.mpr ⟨hi, hlt⟩)
  rcases blstFree_spec bl.height bl.root 0 bl.blocks 0 blkno count _ h.fits (Nat.dvd_zero 32) hpos
    hin h.shape h.node hF hsafe with ⟨m, hrun, hw, hnode⟩
  rw [Nat.zero_add] at hrun
  rcases h.of_within (bl.free + count) hw hnode (by
    rw [cnt_withRange _ _ _ _ hin hF, h.free]) with ⟨hok, hset⟩
  refine ⟨_, by rw [blistFree, hrun]; rfl, hok, rfl, ?_⟩
  change freeSet { bl with root := m, free := bl.free + count } =
    freeSet bl ∪ Finset.Ico blkno (blkno + count)
  ext i
  rw [hset i, Finset.mem_union, mem_freeSet, withRange, Bool.or_eq_true, inRange_iff, and_or_left]
  refine or_congr_right (and_iff_right_of_imp (fun hi => ?_))
  rw [Finset.mem_Ico] at hi
  omega

theorem blistFill_spec (h : Ok H bl) {blkno : Nat} (hpos : 1 ≤ count)
    (hleaf : blkno % bmapRadix + count ≤ bmapRadix)
    (hin : blkno / bmapRadix * bmapRadix < bl.blocks) :
    ∃ nblks bl', blistFill bl blkno count = some (nblks, bl') ∧ Ok H bl' ∧ bl'.blocks = bl.blocks ∧
      SetStep (freeSet bl) (.fill blkno count) (.filled nblks) (freeSet bl') := by
  rcases blstFill_spec bl.height bl.root 0 bl.blocks 0 blkno count _ h.fits (Nat.dvd_zero 32) hpos
    hleaf hin h.shape h.node with ⟨m, hrun, hw, hnode⟩
  rw [Nat.zero_add] at hrun
  have hsplit := cnt_split bl.blocks (isFree bl.root bl.height 0) (inRange blkno count)
  rcases h.of_within (bl.free - cnt bl.blocks (fun i => isFree bl.root bl.height 0 i &&
    inRange blkno count i)) hw hnode (by
      rw [h.free]
      change _ = cnt bl.blocks (fun i => isFree bl.root bl.height 0 i && !inRange blkno count i)
      omega) with ⟨hok, hset⟩
  refine ⟨_, _, by rw [blistFill, hrun]; rfl, hok, rfl, freeSet_without hset, ?_⟩
  change cnt bl.blocks (fun i => isFree bl.root bl.height 0 i && inRange blkno count i) = _
  rw [cnt, Nat.count_eq_card_filter_range]
  refine congrArg Finset.card ?_
  ext i
  rw [Finset.mem_inter, mem_freeSet, Finset.mem_filter, Finset.mem_range, Bool.and_eq_true,
    inRange_iff, and_assoc]

/-- One operation does to the set of free blocks what it is for. -/
theorem exec_spec (h : Ok H bl) (op : Op) (hvalid : Valid bl op)
    (hsafe : H → ∀ blkno count, op = .free blkno count → FreeSafe bl.root bl.height 0 blkno count) :
    ∃ ans bl', exec bl op = some (ans, bl') ∧ Ok H bl' ∧ bl'.blocks = bl.blocks ∧
      SetStep (freeSet bl) op ans (freeSet bl') := by
  cases op with
  | alloc count =>
    rcases blistAlloc_spec h hvalid.1 hvalid.2 with ⟨r, bl', hrun, hok, hblocks, hset, -⟩
    exact ⟨_, bl', by rw [exec, hrun]; rfl, hok, hblocks, hset⟩
  | free blkno count =>
    rcases blistFree_spec h hvalid.1 hvalid.2.1 hvalid.2.2 (fun hH => hsafe hH _ _ rfl) with
      ⟨bl', hrun, hok, hblocks, hset⟩
    exact ⟨_, bl', by rw [exec, hrun]; rfl, hok, hblocks, hset⟩
  | fill blkno count =>
    rcases blistFill_spec h hvalid.1 hvalid.2.1 hvalid.2.2 with
      ⟨nblks, bl', hrun, hok, hblocks, hset⟩
    exact ⟨_, bl', by rw [exec, hrun]; rfl, hok, hblocks, hset⟩

/-- What a live node stands for. -/
theorem Ok.live (h : Ok H bl) {d p b : Nat} (hl : Live bl d p b) :
    NodeOk H bl.root d p (min (radix d) (bl.blocks - b))
      (fun i => isFree bl.root bl.height 0 (b + i)) := by
  induction hl with
  | root =>
    rw [Nat.sub_zero, Nat.min_eq_right h.fits]
    simp only [Nat.zero_add]
    exact h.node
  | @sub d p b k hp hpos hlt hk hin ih =>
    have hk' : (k + 1) * radix d ≤ 16 * radix d := Nat.mul_le_mul_right _ hk
    rw [Nat.add_mul, Nat.one_mul] at hk'
    have hR := radix_pos d
    have hrec := ih.2.2 hpos hlt k (by rw [radix_succ]; omega)
    have hlen : childLen d (min (radix (d + 1)) (bl.blocks - b)) k =
        min (radix d) (bl.blocks - (b + k * radix d)) := by
      rw [childLen, radix_succ]
      omega
    rw [hlen] at hrec
    simpa only [Nat.add_assoc] using hrec

theorem Ok.accounted (h : Ok H bl) : Accounted bl := by
  refine ⟨h.free.trans (card_freeSet bl).symm, fun d p b hl => ?_⟩
  rw [(h.live hl).1, cnt, Nat.count_eq_card_filter_range]
  refine Finset.card_bij (fun i _ => b + i) (fun i hi => ?_) (fun i _ j _ hij => ?_) (fun i hi => ?_)
  · rw [Finset.mem_filter, Finset.mem_range] at hi
    rw [Finset.mem_inter, mem_freeSet, Finset.mem_Ico]
    exact ⟨⟨by omega, hi.2⟩, by omega, by omega⟩
  · omega
  rw [Finset.mem_inter, mem_freeSet, Finset.mem_Ico] at hi
  refine ⟨i - b, ?_, by omega⟩
  rw [Finset.mem_filter, Finset.mem_range, Nat.add_sub_cancel' hi.2.1]
  exact ⟨by omega, hi.1.2⟩

theorem next_progress {blocks : Nat} {op : Op} (h : Ok H bl ∧ bl.blocks = blocks)
    (hvalid : Valid bl op)
    (hsafe : H → ∀ blkno count, op = .free blkno count → FreeSafe bl.root bl.height 0 blkno count) :
    ∃ bl', next bl op = some bl' ∧ Ok H bl' ∧ bl'.blocks = blocks := by
  rcases exec_spec h.1 op hvalid hsafe with ⟨ans, bl', hrun, hok, hblocks, -⟩
  exact ⟨bl', by rw [next, hrun]; rfl, hok, hblocks.trans h.2⟩

/-- Every run of valid operations on a fresh list is completed. Wherever it
    stands all counts are right, and the next valid operation answers and changes
    the set of free blocks as it should. -/
theorem blist_refines_free_set (blocks : Nat) (hpos : 1 ≤ blocks) (m : Mem) (ops : List Op)
    (hvalid : EveryStep next Valid (blistCreate blocks m) ops) :
    freeSet (blistCreate blocks m) = ∅ ∧
      ∃ bl, runOps next (blistCreate blocks m) ops = some bl ∧ bl.blocks = blocks ∧ Accounted bl ∧
        ∀ op, Valid bl op → ∃ ans bl', exec bl op = some (ans, bl') ∧
          SetStep (freeSet bl) op ans (freeSet bl') := by
  rcases blistCreate_ok False blocks hpos m with ⟨hok, hempty⟩
  rcases runOps_progress_of next Valid (fun bl => Ok False bl ∧ bl.blocks = blocks)
    (fun bl op h hv => next_progress h hv (fun hno => hno.elim)) ops _ ⟨hok, rfl⟩ hvalid with
    ⟨bl, hrun, hbl, hblocks⟩
  refine ⟨hempty, bl, hrun, hblocks, hbl.accounted, fun op hv => ?_⟩
  rcases exec_spec hbl op hv (fun hno => hno.elim) with ⟨ans, bl', hexec, -, -, hset⟩
  exact ⟨ans, bl', hexec, hset⟩

theorem blist_refines_free_set_forty : EveryStep next Valid (blistCreate 40 (fun _ => ⟨7, 7, 7⟩))
      [.free 0 40, .alloc 3, .fill 30 2] ∧
      ∃ bl, runOps next (blistCreate 40 (fun _ => ⟨7, 7, 7⟩)) [.free 0 40, .alloc 3, .fill 30 2] =
        some bl ∧ bl.blocks = 40 := by
  have hvalid : EveryStep next Valid (blistCreate 40 (fun _ => ⟨7, 7, 7⟩))
      [.free 0 40, .alloc 3, .fill 30 2] := by decide
  rcases blist_refines_free_set 40 (by decide) (fun _ => ⟨7, 7, 7⟩) _ hvalid with
    ⟨-, bl, hrun, hblocks, -⟩
  exact ⟨hvalid, bl, hrun, hblocks⟩

end FreeBSDKern.Swap
