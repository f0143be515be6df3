import FreeBSDKern.Lib.Run
import FreeBSDKern.Unit.Steps

/-!
# Unit Numbers Refine a Finite Set

A number space is meant to be a finite set of allocated numbers with three
operations, and `specStep` says so. Here a run of the allocator is compared
with a run on the set, answer by answer.

They agree as long as the run stays out of the branch of `alloc_unr_specific`
that miscounts. A run that takes it can be made to hand out a number above the
range, which is `allocated_above_high`.

## Main definitions

* `exec`: The operations of the allocator, collecting their answers.
* `specStep`: The operations on the set.
* `CountsRight`: A step stays out of the branch that miscounts.
* `RefinesSet`: A sequence of operations is answered as on the set.

## Theorems

* `agree_step`: One operation on either side.
* `unrhdr_refines_set`: Every run that stays out of the branch.
* `allocated_above_high`: A run that does not.
-/

namespace FreeBSDKern.Unit

inductive Op where
  | allocUnr
  | allocUnrSpecific (item : Nat)
  | freeUnr (item : Nat)

/-- A number space and the answers it has given so far. -/
abbrev Answered := Unrhdr × List (Option Int)

/-- One operation. Those that may split an element bring two spare ones. -/
def exec (s : Answered) : Op → Option Answered
  | .allocUnr => (allocUnrl s.1).map (fun r => (r.2, s.2 ++ [some r.1]))
  | .allocUnrSpecific item =>
    (allocUnrSpecificl s.1 item 2).map (fun r => (r.2, s.2 ++ [some r.1]))
  | .freeUnr item => (freeUnrl s.1 item 2).map (fun uh => (uh, s.2 ++ [none]))

/-- The least number of the range that is not in the set. -/
def leastFree (low high : Nat) (S : Finset Nat) : Option Nat :=
  (List.range' low (high + 1 - low)).find? (fun n => n ∉ S)

/-- What the operations mean for the set of allocated numbers. Only an
    allocated number may be freed. -/
def specStep (low high : Nat) (s : Finset Nat × List (Option Int)) :
    Op → Option (Finset Nat × List (Option Int))
  | .allocUnr => match leastFree low high s.1 with
    | some n => some (insert n s.1, s.2 ++ [some (n : Int)])
    | none => some (s.1, s.2 ++ [some (-1)])
  | .allocUnrSpecific item =>
    if low ≤ item ∧ item ≤ high ∧ item ∉ s.1 then
      some (insert item s.1, s.2 ++ [some (item : Int)])
    else some (s.1, s.2 ++ [some (-1)])
  | .freeUnr item => if item ∈ s.1 then some (s.1.erase item, s.2 ++ [none]) else none

instance (uh : Unrhdr) (item : Nat) : Decidable (Miscounts uh item) :=
  inferInstanceAs (Decidable (_ ∧ _ ∧ _ ∧ _))

/-- The step does not take the branch that miscounts. -/
def CountsRight (s : Answered) : Op → Prop
  | .allocUnrSpecific item => ¬ Miscounts s.1 item
  | _ => True

instance (s : Answered) (op : Op) : Decidable (CountsRight s op) :=
  match op with
  | .allocUnr => isTrue trivial
  | .allocUnrSpecific item => inferInstanceAs (Decidable (¬ Miscounts s.1 item))
  | .freeUnr _ => isTrue trivial

/-- The number space stands for the set. -/
def Represents (low high : Nat) (uh : Unrhdr) (S : Finset Nat) : Prop :=
  uh.low = low ∧ uh.high = high ∧ (∀ n, n ∈ S ↔ low ≤ n ∧ (units uh)[n - low]? = some true) ∧
    uh.first + (uh.head.map Unr.len).sum + uh.last = high - low + 1

/-- A sequence of operations is answered as on a finite set, and leaves the
    number space standing for it. -/
def RefinesSet (low high : Nat) (ops : List Op) : Prop :=
  ∀ S answers, Lib.runOps (specStep low high) (∅, []) ops = some (S, answers) →
    ∃ uh, Lib.runOps exec (initUnrhdr low high, []) ops = some (uh, answers) ∧
      Represents low high uh S

theorem length_bits (l : List Unr) : (bits l).length = (l.map Unr.len).sum := by
  induction l with
  | nil => rfl
  | cons up l ih =>
    rw [bits_cons, List.length_append, elemBits_length, ih, List.map_cons, List.sum_cons]

/-- What a step keeps: the two agree on the numbers and on the answers. -/
def Agree (low high : Nat) (s : Answered) (t : Finset Nat × List (Option Int)) : Prop :=
  low ≤ high ∧ Sound s.1 ∧ Represents low high s.1 t.1 ∧ s.2 = t.2

variable {low high : Nat} {uh : Unrhdr} {S : Finset Nat}

theorem Represents.covers (h : Represents low high uh S) (hlh : low ≤ high) : Covers uh := by
  rcases h with ⟨rfl, rfl, -, hsum⟩
  exact ⟨hlh, by rw [units_length, length_bits, hsum]⟩

/-- Writing one number writes it in the set. -/
theorem represents_set (low high : Nat) (uh uh' : Unrhdr) (S S' : Finset Nat) (i : Nat) (v : Bool)
    (h : Represents low high uh S) (hlh : low ≤ high)
    (hi : i < (units uh).length)
    (hb : Becomes uh uh' ((units uh).set i v))
    (hS : ∀ n, n ∈ S' ↔ if n = low + i then v = true else n ∈ S) : Represents low high uh' S' := by
  have hcov := h.covers hlh
  rcases h with ⟨rfl, rfl, hmem, hsum⟩
  rcases hb with ⟨hs, hu, hl, hh⟩
  refine ⟨hl, hh, fun n => ?_, ?_⟩
  · rw [hS n, hu, List.getElem?_set]
    by_cases hn : n = uh.low + i
    · rw [if_pos hn, if_pos (by omega), if_pos hi, Option.some.injEq]
      exact ⟨fun hv => ⟨by omega, hv⟩, fun hand => hand.2⟩
    rw [if_neg hn, hmem n]
    by_cases hlow : uh.low ≤ n
    · rw [if_neg (by omega)]
    · exact ⟨fun hand => absurd hand.1 hlow, fun hand => absurd hand.1 hlow⟩
  have hlen := congrArg List.length hu
  rw [List.length_set, hcov.2, units_length, length_bits] at hlen
  exact hlen

/-- A number of the range that is not in the set has its bit clear. -/
theorem Represents.clear (h : Represents low high uh S) (hlh : low ≤ high) (n : Nat) (hl : low ≤ n)
    (hh : n ≤ high) (hn : n ∉ S) : (units uh)[n - low]? = some false := by
  have hlt : n - low < (units uh).length := by
    rw [(h.covers hlh).2, h.1, h.2.1]
    omega
  rw [List.getElem?_eq_getElem hlt]
  cases hv : (units uh)[n - low] with
  | false => rfl
  | true => exact absurd ((h.2.2.1 n).mpr ⟨hl, by rw [List.getElem?_eq_getElem hlt, hv]⟩) hn

theorem Represents.notMem_of_clear (h : Represents low high uh S) (n : Nat)
    (hf : (units uh)[n - low]? = some false) : n ∉ S := by
  intro hin
  have hset := ((h.2.2.1 n).mp hin).2
  rw [hf] at hset
  cases hset

/-- What the set gains or loses by one number. -/
theorem mem_insert_iff_ite (S : Finset Nat) (item n : Nat) :
    n ∈ insert item S ↔ if n = item then true = true else n ∈ S := by
  rw [Finset.mem_insert]
  by_cases hn : n = item
  · simp only [hn, if_true, true_or]
  · simp only [hn, if_false, false_or]

theorem mem_erase_iff_ite (S : Finset Nat) (item n : Nat) :
    n ∈ S.erase item ↔ if n = item then false = true else n ∈ S := by
  rw [Finset.mem_erase]
  by_cases hn : n = item
  · simp only [hn, if_true, ne_eq, not_true_eq_false, false_and, Bool.false_eq_true]
  · simp only [hn, if_false, ne_eq, not_false_eq_true, true_and]

/-- The lowest clear bit is the least number missing from the set. -/
theorem leastFree_eq (low high : Nat) (uh : Unrhdr) (S : Finset Nat) (i : Nat)
    (h : Represents low high uh S) (hlh : low ≤ high) (hfree : (units uh)[i]? = some false)
    (hbelow : ∀ j, j < i → (units uh)[j]? = some true) : leastFree low high S = some (low + i) := by
  have hi : i < (units uh).length := (List.getElem?_eq_some_iff.mp hfree).1
  rw [(h.covers hlh).2, h.1, h.2.1] at hi
  have hnot := h.notMem_of_clear (low + i) (by rwa [Nat.add_sub_cancel_left])
  rw [leastFree, List.find?_range'_eq_some]
  refine ⟨by simpa using hnot, List.mem_range'_1.mpr ⟨by omega, by omega⟩, fun j hj hlt => ?_⟩
  simpa using (h.2.2.1 j).mpr ⟨hj, hbelow (j - low) (by omega)⟩

theorem agree_allocUnr (low high : Nat) (uh : Unrhdr) (S : Finset Nat) (answers : List (Option Int))
    (t' : Finset Nat × List (Option Int)) (hR : Agree low high (uh, answers) (S, answers))
    (hspec : specStep low high (S, answers) .allocUnr = some t') :
    ∃ s', exec (uh, answers) .allocUnr = some s' ∧ Agree low high s' t' := by
  rcases hR with ⟨hlh, hsound, hrep, -⟩
  rcases allocUnrl_spec uh hsound with ⟨i, uh', hex, hfree, hbelow, hb⟩ | ⟨hex, hall⟩
  · have hleast := leastFree_eq low high uh S i hrep hlh hfree hbelow
    simp only [specStep, hleast, Option.some.injEq] at hspec
    refine ⟨(uh', answers ++ [some ((low + i : Nat) : Int)]), ?_, ?_⟩
    · rw [exec, hex, hrep.1]
      rfl
    rw [← hspec]
    exact ⟨hlh, hb.1, represents_set low high uh uh' S _ i true hrep hlh
      (List.getElem?_eq_some_iff.mp hfree).1 hb (mem_insert_iff_ite S (low + i)), rfl⟩
  -- Every bit is set, so no number of the range is missing.
  have hleast : leastFree low high S = none := by
    rw [leastFree, List.find?_eq_none]
    intro n hn hout
    have hrange := List.mem_range'_1.mp hn
    have hclear := hrep.clear hlh n hrange.1 (by omega) (by simpa using hout)
    cases hall false (List.mem_of_getElem? hclear)
  simp only [specStep, hleast, Option.some.injEq] at hspec
  refine ⟨(uh, answers ++ [some (-1)]), ?_, ?_⟩
  · rw [exec, hex]
    rfl
  · rw [← hspec]
    exact ⟨hlh, hsound, hrep, rfl⟩

theorem agree_allocUnrSpecific (low high : Nat) (uh : Unrhdr) (S : Finset Nat)
    (answers : List (Option Int)) (item : Nat) (t' : Finset Nat × List (Option Int))
    (hR : Agree low high (uh, answers) (S, answers)) (hC : ¬ Miscounts uh item)
    (hspec : specStep low high (S, answers) (.allocUnrSpecific item) = some t') :
    ∃ s', exec (uh, answers) (.allocUnrSpecific item) = some s' ∧ Agree low high s' t' := by
  rcases hR with ⟨hlh, hsound, hrep, -⟩
  have hcov := hrep.covers hlh
  rcases allocUnrSpecificl_spec uh item hsound hcov hC with ⟨htake, hrefuse⟩
  rw [hrep.1] at htake hrefuse
  by_cases hin : low ≤ item ∧ item ≤ high ∧ item ∉ S
  · have hclear := hrep.clear hlh item hin.1 hin.2.1 hin.2.2
    rcases htake hin.1 hclear with ⟨uh', hex, hb⟩
    simp only [specStep, if_pos hin, Option.some.injEq] at hspec
    refine ⟨(uh', answers ++ [some (item : Int)]), ?_, ?_⟩
    · rw [exec, hex]
      rfl
    rw [← hspec]
    refine ⟨hlh, hb.1, represents_set low high uh uh' S _ (item - low) true hrep hlh
      (List.getElem?_eq_some_iff.mp hclear).1 hb (fun n => ?_), rfl⟩
    rw [Nat.add_sub_cancel' hin.1]
    exact mem_insert_iff_ite S item n
  have hno : ¬ (low ≤ item ∧ (units uh)[item - low]? = some false) := by
    rintro ⟨hl, hf⟩
    have hlt := (List.getElem?_eq_some_iff.mp hf).1
    rw [hcov.2, hrep.1, hrep.2.1] at hlt
    exact hin ⟨hl, by omega, hrep.notMem_of_clear item hf⟩
  simp only [specStep, if_neg hin, Option.some.injEq] at hspec
  refine ⟨(uh, answers ++ [some (-1)]), ?_, ?_⟩
  · rw [exec, hrefuse hno]
    rfl
  · rw [← hspec]
    exact ⟨hlh, hsound, hrep, rfl⟩

theorem agree_freeUnr (low high : Nat) (uh : Unrhdr) (S : Finset Nat) (answers : List (Option Int))
    (item : Nat) (t' : Finset Nat × List (Option Int))
    (hR : Agree low high (uh, answers) (S, answers))
    (hspec : specStep low high (S, answers) (.freeUnr item) = some t') :
    ∃ s', exec (uh, answers) (.freeUnr item) = some s' ∧ Agree low high s' t' := by
  rcases hR with ⟨hlh, hsound, hrep, -⟩
  by_cases hin : item ∈ S
  · have hset := (hrep.2.2.1 item).mp hin
    rcases freeUnrl_spec uh item hsound (by rw [hrep.1]; exact hset.2) with ⟨uh', hex, hb⟩
    simp only [specStep, if_pos hin, Option.some.injEq] at hspec
    refine ⟨(uh', answers ++ [none]), ?_, ?_⟩
    · rw [exec, hex]
      rfl
    rw [← hspec]
    rw [hrep.1] at hb
    refine ⟨hlh, hb.1, represents_set low high uh uh' S _ (item - low) false hrep hlh
      (List.getElem?_eq_some_iff.mp hset.2).1 hb (fun n => ?_), rfl⟩
    rw [Nat.add_sub_cancel' hset.1]
    exact mem_erase_iff_ite S item n
  · simp only [specStep, if_neg hin, reduceCtorEq] at hspec

theorem agree_step (low high : Nat) (s : Answered) (t : Finset Nat × List (Option Int)) (op : Op)
    (t' : Finset Nat × List (Option Int)) (hR : Agree low high s t) (hC : CountsRight s op)
    (hspec : specStep low high t op = some t') :
    ∃ s', exec s op = some s' ∧ Agree low high s' t' := by
  rcases s with ⟨uh, answers⟩
  rcases t with ⟨S, answers'⟩
  have heq : answers = answers' := hR.2.2.2
  subst heq
  cases op with
  | allocUnr => exact agree_allocUnr low high uh S answers t' hR hspec
  | allocUnrSpecific item =>
    exact agree_allocUnrSpecific low high uh S answers item t' hR hC hspec
  | freeUnr item => exact agree_freeUnr low high uh S answers item t' hR hspec

theorem agree_init (low high : Nat) (h : low ≤ high) :
    Agree low high (initUnrhdr low high, []) (∅, []) := by
  refine ⟨h, sound_nil _ rfl, ⟨rfl, rfl, fun n => ?_, ?_⟩, rfl⟩
  · rw [units_of_nil (initUnrhdr low high) rfl]
    simp only [Finset.notMem_empty, initUnrhdr, List.replicate_zero, List.nil_append,
      List.getElem?_replicate, false_iff, not_and]
    intro _
    split <;> simp
  · simp only [initUnrhdr, List.map_nil, List.sum_nil]
    omega

/-- In every run that never takes the branch that miscounts, the allocator is a
    finite set: every answer is the set's, no operation needs a third spare
    element, and the parts of the number space add up to its range. -/
theorem unrhdr_refines_set (low high : Nat) (hlh : low ≤ high) (ops : List Op)
    (hcount : Lib.EveryStep exec CountsRight (initUnrhdr low high, []) ops) :
    RefinesSet low high ops := by
  intro S answers hspec
  rcases Lib.runOps_simulation_of exec (specStep low high) CountsRight (Agree low high)
    (fun s t op t' => agree_step low high s t op t') ops (initUnrhdr low high, []) (∅, [])
    (S, answers) (agree_init low high hlh) hcount hspec with ⟨⟨uh, answers'⟩, hrun, hagree⟩
  rcases hagree with ⟨-, -, hrep, rfl⟩
  exact ⟨uh, hrun, hrep⟩

theorem unrhdr_refines_set_three :
    RefinesSet 0 2 [.allocUnrSpecific 2, .allocUnr, .allocUnrSpecific 1, .freeUnr 2, .allocUnr] :=
  unrhdr_refines_set 0 2 (by decide) _ (by decide)

/-- One number taken from the bottom and then one from the top of three: the
    trailing count is off by one, and the allocator hands out a number above
    the range. -/
theorem allocated_above_high :
    Lib.runOps (specStep 0 2) (∅, []) [.allocUnr, .allocUnrSpecific 2, .allocUnr, .allocUnr] =
        some ({1, 2, 0}, [some 0, some 2, some 1, some (-1)]) ∧
      (Lib.runOps exec (initUnrhdr 0 2, [])
        [.allocUnr, .allocUnrSpecific 2, .allocUnr, .allocUnr]).map Prod.snd =
        some [some 0, some 2, some 1, some 3] ∧
      ¬ RefinesSet 0 2 [.allocUnr, .allocUnrSpecific 2, .allocUnr, .allocUnr] := by
  have hspec : Lib.runOps (specStep 0 2) (∅, [])
      [.allocUnr, .allocUnrSpecific 2, .allocUnr, .allocUnr] =
        some ({1, 2, 0}, [some 0, some 2, some 1, some (-1)]) := by decide
  have hexec : (Lib.runOps exec (initUnrhdr 0 2, [])
      [.allocUnr, .allocUnrSpecific 2, .allocUnr, .allocUnr]).map Prod.snd =
        some [some 0, some 2, some 1, some 3] := by decide
  refine ⟨hspec, hexec, fun h => ?_⟩
  rcases h _ _ hspec with ⟨uh, hrun, -⟩
  rw [hrun] at hexec
  cases hexec

end FreeBSDKern.Unit
