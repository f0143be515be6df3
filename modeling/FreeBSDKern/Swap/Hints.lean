import FreeBSDKern.Swap.Refine

/-!
# Hints of the Block List

A hint is meant never to be too low, so that an allocation only fails where no
leaf holds a run of the length asked for. A free that makes a node entirely free
returns before it raises the hint of the node. If the hint had been lowered by a
failed search it stays low, every leaf below the node is free, and allocations
pass it by.

In a run in which no free does that, the hints of all live nodes are right and
allocations do not fail without need.

## Main definitions

* `SafeStep`: A step that does not leave a low hint behind.
* `HintsOk`: No hint of a live node is too low.

## Theorems

* `alloc_finds_run`: Runs without such a free.
* `free_leaves_low_hint`: A run with one.
-/

namespace FreeBSDKern.Swap

open Lib

/-- A valid step that makes no node entirely free which has free blocks and a
    hint below the length of a leaf. -/
def SafeStep (bl : Blist) (op : Op) : Prop :=
  Valid bl op ∧ match op with
    | .free blkno count => FreeSafe bl.root bl.height 0 blkno count
    | _ => True

instance SafeStep.decidable (bl : Blist) : ∀ op, Decidable (SafeStep bl op)
  | .alloc count => inferInstanceAs (Decidable (Valid bl (.alloc count) ∧ True))
  | .free blkno count => inferInstanceAs (Decidable (Valid bl (.free blkno count) ∧
      FreeSafe bl.root bl.height 0 blkno count))
  | .fill blkno count => inferInstanceAs (Decidable (Valid bl (.fill blkno count) ∧ True))

/-- Some leaf holds a run of free blocks of a length. -/
def LeafRun (bl : Blist) (count : Nat) : Prop :=
  ∃ b, b % bmapRadix + count ≤ bmapRadix ∧ Finset.Ico b (b + count) ⊆ freeSet bl

/-- No hint of a live node is below the length of a run in a leaf under it. -/
def HintsOk (bl : Blist) : Prop :=
  ∀ d p b, Live bl d p b → ∀ a count, 0 < count → a % bmapRadix + count ≤ bmapRadix →
    Finset.Ico a (a + count) ⊆ freeSet bl ∩ Finset.Ico b (b + radix d) →
    (count : Int) ≤ (bl.root p).bighint

theorem Live.dvd {bl : Blist} {d p b : Nat} (h : Live bl d p b) : 32 ∣ b := by
  induction h with
  | root => exact Nat.dvd_zero 32
  | @sub d p b k _ _ _ _ _ ih => exact Nat.dvd_add ih (Nat.dvd_mul_left_of_dvd (dvd_radix d) k)

theorem Ok.hintsOk {bl : Blist} (h : Ok True bl) : HintsOk bl := by
  intro d p b hl a count hpos hleaf hrun
  have hdvd := hl.dvd
  have hmem : ∀ i, a ≤ i → i < a + count → (i < bl.blocks ∧ isFree bl.root bl.height 0 i = true) ∧
      b ≤ i ∧ i < b + radix d := by
    intro i hi hi'
    have hin := hrun (Finset.mem_Ico.mpr ⟨hi, hi'⟩)
    rwa [Finset.mem_inter, mem_freeSet, Finset.mem_Ico] at hin
  have hfirst := hmem a le_rfl (by omega)
  have hlast := hmem (a + count - 1) (by omega) (by omega)
  rw [bmapRadix] at hleaf
  refine (h.live hl).hint trivial count hpos ⟨a - b, by omega, by omega, fun i hi hi' => ?_⟩
  have := (hmem (b + i) (by omega) (by omega)).1.2
  exact this

theorem Ok.alloc_of_leafRun {bl : Blist} (h : Ok True bl) {count : Nat} (hpos : 1 ≤ count)
    (hrun : LeafRun bl count) : ∃ b bl', blistAlloc bl count = some (some b, bl') := by
  rcases hrun with ⟨b, hleaf, hfree⟩
  have hmem : ∀ i, b ≤ i → i < b + count → i < bl.blocks ∧ isFree bl.root bl.height 0 i = true :=
    fun i hi hi' => mem_freeSet.mp (hfree (Finset.mem_Ico.mpr ⟨hi, hi'⟩))
  have hlast := (hmem (b + count - 1) (by omega) (by omega)).1
  rw [bmapRadix] at hleaf
  rcases blistAlloc_spec h hpos (by rw [bmapRadix]; omega) with ⟨r, bl', hexec, -, -, -, hno⟩
  cases r with
  | none =>
    exact absurd ⟨b, hleaf, by omega, fun i hi hi' => (hmem i hi hi').2⟩ (hno trivial rfl)
  | some b' => exact ⟨b', bl', hexec⟩

/-- In every run in which no free makes a node with a low hint entirely free, no
    hint is too low, and an allocation succeeds wherever a leaf holds a run. -/
theorem alloc_finds_run (blocks : Nat) (hpos : 1 ≤ blocks) (m : Mem) (ops : List Op)
    (hsafe : EveryStep next SafeStep (blistCreate blocks m) ops) :
    ∃ bl, runOps next (blistCreate blocks m) ops = some bl ∧ HintsOk bl ∧
      ∀ count, 1 ≤ count → count ≤ bmapRadix → LeafRun bl count →
        ∃ b bl', blistAlloc bl count = some (some b, bl') := by
  rcases runOps_progress_of next SafeStep (fun bl => Ok True bl ∧ bl.blocks = blocks)
    (fun bl op h hs => next_progress h hs.1 (fun _ blkno count hop => by
      subst hop
      exact hs.2)) ops _ ⟨(blistCreate_ok True blocks hpos m).1, rfl⟩ hsafe with
    ⟨bl, hrun, hok, -⟩
  exact ⟨bl, hrun, hok.hintsOk, fun count hc _ hleaf => hok.alloc_of_leafRun hc hleaf⟩

theorem alloc_finds_run_forty : EveryStep next SafeStep (blistCreate 40 (fun _ => ⟨7, 7, 7⟩))
      [.free 0 40, .alloc 3, .fill 30 2] ∧
      ∃ bl, runOps next (blistCreate 40 (fun _ => ⟨7, 7, 7⟩)) [.free 0 40, .alloc 3, .fill 30 2] =
        some bl ∧ HintsOk bl := by
  have hsafe : EveryStep next SafeStep (blistCreate 40 (fun _ => ⟨7, 7, 7⟩))
      [.free 0 40, .alloc 3, .fill 30 2] := by decide
  rcases alloc_finds_run 40 (by decide) (fun _ => ⟨7, 7, 7⟩) _ hsafe with ⟨bl, hrun, hhints, -⟩
  exact ⟨hsafe, bl, hrun, hhints⟩

/-- Of 513 blocks the first is freed, and a search for two lowers the hints to
    one. Freeing the other blocks of its subtree makes that entirely free, and
    two blocks are still not found. -/
theorem free_leaves_low_hint : EveryStep next Valid (blistCreate 513 (fun _ => ⟨0, 0, 0⟩))
        [.free 0 1, .alloc 2, .free 1 511] ∧
      ∃ bl, runOps next (blistCreate 513 (fun _ => ⟨0, 0, 0⟩))
          [.free 0 1, .alloc 2, .free 1 511] = some bl ∧
        LeafRun bl 2 ∧ ∃ bl', blistAlloc bl 2 = some (none, bl') := by
  refine ⟨by decide +kernel, (runOps next (blistCreate 513 (fun _ => ⟨0, 0, 0⟩))
    [.free 0 1, .alloc 2, .free 1 511]).get (by decide), (Option.some_get _).symm,
    ⟨0, by decide, by decide +kernel⟩, ?_⟩
  have hfails : ∀ r : Option (Option Nat × Blist), r.map Prod.fst = some none →
      ∃ bl', r = some (none, bl') := by
    intro r hr
    rw [Option.map_eq_some_iff] at hr
    rcases hr with ⟨⟨x, bl'⟩, rfl, hx⟩
    exact ⟨bl', by rw [← hx]⟩
  exact hfails _ (by decide)

end FreeBSDKern.Swap
