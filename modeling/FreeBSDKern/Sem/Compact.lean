import FreeBSDKern.Sem.Range

/-!
# Removing a Set

The semaphores of all sets stand one set behind another in the pool. When a set
is removed, what lies behind it moves to its place, one semaphore after the other,
and the sets behind it begin that much earlier.

The loop runs up to the old end of the used part, and at each place it reads one that lies a
whole set behind. It so reads behind the old end, as many places as the
set had. The semaphores there mean nothing and no set has them afterwards, but
where the pool is nearly full they are not in the pool.

## Main definitions

* `shiftLoop`: The loop, with the places that it touches.
* `Packed`: The sets fill the used part of the pool.
* `Compacted`: What removing a set is for.

## Theorems

* `shiftLoop_sem`, `mem_shiftLoop`: The loop.
* `packed_step`: One step.
* `rmid_compacts`: A set is removed from a table that any run has left.
* `rmid_overrun`: A set is removed from a full pool.
-/

namespace FreeBSDKern.Sem

open Lib Function

/-- The loop of `IPC_RMID` from place `i` on, for `n` places, and the places of the pool
    that are read or written. -/
def shiftLoop (nsems : Nat) : Nat → Nat → (Nat → Semaphore) → (Nat → Semaphore) × List Nat
  | 0, _, sem => (sem, [])
  | n + 1, i, sem =>
    let r := shiftLoop nsems n (i + 1) (update sem i (sem (i + nsems)))
    (r.1, (i + nsems) :: i :: r.2)

theorem shiftLoop_sem {nsems : Nat} (hpos : 0 < nsems) (n : Nat) : ∀ (i : Nat)
    (sem : Nat → Semaphore) (x : Nat), (shiftLoop nsems n i sem).1 x =
      if i ≤ x ∧ x < i + n then sem (x + nsems) else sem x := by
  induction n with
  | zero =>
    intro i sem x
    rw [if_neg (by omega)]
    rfl
  | succ n ih =>
    intro i sem x
    simp only [shiftLoop]
    rw [ih]
    by_cases hi : x = i
    · subst hi
      rw [if_neg (by omega), if_pos (by omega), update_self]
    rw [update_of_ne hi]
    by_cases hin : i + 1 ≤ x ∧ x < i + 1 + n
    · rw [if_pos hin, if_pos (by omega), update_of_ne (by omega)]
    · rw [if_neg hin, if_neg (by omega)]

theorem mem_shiftLoop {nsems : Nat} (n : Nat) : ∀ (i : Nat) (sem : Nat → Semaphore) (x : Nat),
    x ∈ (shiftLoop nsems n i sem).2 ↔ ∃ j, i ≤ j ∧ j < i + n ∧ (x = j + nsems ∨ x = j) := by
  induction n with
  | zero =>
    intro i sem x
    constructor
    · exact fun h => absurd h List.not_mem_nil
    · rintro ⟨j, h1, h2, -⟩
      omega
  | succ n ih =>
    intro i sem x
    simp only [shiftLoop]
    rw [List.mem_cons, List.mem_cons, ih]
    constructor
    · rintro (h | h | ⟨j, h1, h2, h⟩)
      · exact ⟨i, by omega, by omega, Or.inl h⟩
      · exact ⟨i, by omega, by omega, Or.inr h⟩
      · exact ⟨j, by omega, by omega, h⟩
    rintro ⟨j, h1, h2, h⟩
    by_cases hj : j = i
    · subst hj
      rcases h with h | h
      · exact Or.inl h
      · exact Or.inr (Or.inl h)
    · exact Or.inr (Or.inr ⟨j, by omega, by omega, h⟩)

/-- The loop that removes a set. -/
def rmidShift (σ : State) (idx : Nat) : (Nat → Semaphore) × List Nat :=
  shiftLoop (σ.sema idx).nsems (σ.semtot - (σ.sema idx).base) (σ.sema idx).base σ.sem

variable {inf : Seminfo} {σ σ' : State}

/-- The semaphores that `IPC_RMID` leaves are those of the loop. -/
theorem rmid_sem {idx seq : Nat} (hl : Layout σ) (hlt : idx < inf.semmni)
    (hvalid : semvalid σ idx seq = true) : (rmid inf σ idx seq).1.sem = (rmidShift σ idx).1 := by
  have halloc : (σ.sema idx).alloc = true := by
    unfold semvalid at hvalid
    rw [Bool.and_eq_true] at hvalid
    exact hvalid.1
  have hin := hl.inside idx halloc
  unfold rmid
  rw [if_neg (not_or.mpr ⟨not_le.mpr hlt, not_not.mpr hvalid⟩)]
  funext x
  unfold rmidShift
  rw [shiftLoop_sem (hl.pos idx halloc)]
  have hend : (σ.sema idx).base + (σ.semtot - (σ.sema idx).base) = σ.semtot := by omega
  rw [hend]

/-- The sets fill the used part of the pool. -/
structure Packed (inf : Seminfo) (σ : State) : Prop where
  layout : Layout σ
  filled : ∀ x < σ.semtot, ∃ i, (σ.sema i).alloc = true ∧
    (σ.sema i).base ≤ x ∧ x < (σ.sema i).base + (σ.sema i).nsems
  total : σ.semtot ≤ inf.semmns

theorem Packed.of_sema (h : Packed inf σ) (hsema : σ'.sema = σ.sema) (htot : σ'.semtot = σ.semtot) :
    Packed inf σ' := by
  refine ⟨h.layout.of_sema hsema htot, ?_, ?_⟩
  · rw [hsema, htot]
    exact h.filled
  · rw [htot]
    exact h.total

-- A new set fits into the pool.
theorem semget_total (h : σ.semtot ≤ inf.semmns) (key nsems : Int) (creat excl : Bool) :
    (semget inf σ key nsems creat excl).1.semtot ≤ inf.semmns := by
  rcases semget_created inf σ key nsems creat excl with heq | ⟨i, n, -, -, hfit, heq⟩
  · rw [heq]
    exact h
  · rw [heq]
    exact hfit h

theorem Packed.semget (h : Packed inf σ) (key nsems : Int) (creat excl : Bool) :
    Packed inf (semget inf σ key nsems creat excl).1 := by
  refine ⟨h.layout.semget key nsems creat excl, ?_, semget_total h.total key nsems creat excl⟩
  rcases semget_cases inf σ key nsems creat excl with heq | ⟨i, n, hfree, hn, heq⟩
  · rw [heq]
    exact h.filled
  rw [heq]
  intro x hx
  simp only at hx
  by_cases hold : x < σ.semtot
  · rcases h.filled x hold with ⟨j, hj, hplace⟩
    have hji : j ≠ i := by
      intro hji
      rw [hji, hfree] at hj
      exact absurd hj (by decide)
    refine ⟨j, ?_⟩
    simp only [update_of_ne hji]
    exact ⟨hj, hplace⟩
  refine ⟨i, ?_⟩
  simp only [update_self]
  exact ⟨trivial, by omega, by omega⟩

theorem Packed.rmid (h : Packed inf σ) (idx seq : Nat) : Packed inf (rmid inf σ idx seq).1 := by
  rcases rmid_cases inf σ idx seq with heq | ⟨hidx, heq⟩
  · rw [heq]
    exact h
  have hin := h.layout.inside idx hidx
  have hpos := h.layout.pos idx hidx
  refine ⟨h.layout.rmid idx seq, ?_, ?_⟩
  · rw [heq]
    intro x hx
    simp only at hx
    by_cases hbelow : x < (σ.sema idx).base
    · -- A set before the one removed stays.
      rcases h.filled x (by omega) with ⟨j, hj, hlo, hhi⟩
      have hji : j ≠ idx := by
        rintro rfl
        omega
      refine ⟨j, ?_⟩
      simp only [if_neg hji]
      rcases h.layout.rmid_base hji hidx hj with ⟨hlt, hle⟩ | ⟨hlt, hle⟩
      · omega
      · rw [if_neg (fun hc => hlt hc.2)]
        exact ⟨hj, hlo, hhi⟩
    -- What is here now was a set further back.
    rcases h.filled (x + (σ.sema idx).nsems) (by omega) with ⟨j, hj, hlo, hhi⟩
    have hji : j ≠ idx := by
      rintro rfl
      omega
    refine ⟨j, ?_⟩
    simp only [if_neg hji]
    rcases h.layout.rmid_base hji hidx hj with ⟨hlt, hle⟩ | ⟨hlt, hle⟩
    · rw [if_pos ⟨hj, hlt⟩]
      exact ⟨hj, by simp only; omega, by simp only; omega⟩
    · omega
  · rw [heq]
    exact le_trans (Nat.sub_le _ _) h.total

-- A step adds a set, removes one, or leaves all of them where they are.
theorem step_sema {op : Op} (h : step inf σ op = some σ') :
    (∃ key nsems creat excl, σ' = (semget inf σ key nsems creat excl).1) ∨
      (∃ idx seq, σ' = (rmid inf σ idx seq).1) ∨ (σ'.sema = σ.sema ∧ σ'.semtot = σ.semtot) := by
  have hsets := fun hfits => step_sets h hfits
  cases op with
  | exitStep k =>
    unfold step at h
    rw [Option.map_eq_some_iff] at h
    rcases h with ⟨⟨τ, out⟩, hexec, rfl⟩
    rcases exitStep_cases hexec with ⟨s, ix, hk, ⟨e, he, ⟨-, rfl⟩ | ⟨-, -, rfl⟩⟩ | ⟨-, rfl⟩⟩
    · exact Or.inr (Or.inr ⟨rfl, rfl⟩)
    · exact Or.inr (Or.inr ⟨rfl, rfl⟩)
    · exact Or.inr (Or.inr ⟨rfl, rfl⟩)
  | _ => exact (hsets trivial).imp_right (Or.imp_right fun hk => ⟨hk.sema, hk.semtot⟩)

theorem packed_step {op : Op} (h : Packed inf σ) (hstep : step inf σ op = some σ') :
    Packed inf σ' := by
  rcases step_sema hstep with ⟨key, nsems, creat, excl, rfl⟩ | ⟨idx, seq, rfl⟩ | ⟨hsema, htot⟩
  · exact h.semget key nsems creat excl
  · exact h.rmid idx seq
  · exact h.of_sema hsema htot

theorem Packed.init (inf : Seminfo) (mem : Nat → Semaphore) : Packed inf (init inf mem) :=
  ⟨Layout.init inf mem, fun x hx => absurd hx (Nat.not_lt_zero x), zero_le⟩

theorem packed_run {mem : Nat → Semaphore} {ops : List Op}
    (hrun : runOps (step inf) (init inf mem) ops = some σ) : Packed inf σ :=
  runOps_invariant (step inf) (Packed inf) (fun _ _ _ hP hstep => packed_step hP hstep) ops
    (init inf mem) σ (Packed.init inf mem) hrun

/-- What removing a set is for. -/
structure Compacted (inf : Seminfo) (σ σ' : State) (idx : Nat) : Prop where
  removed : (σ'.sema idx).alloc = false
  others : ∀ i, i ≠ idx → SameSet σ σ' i
  packed : Packed inf σ'
  semtot : σ'.semtot + (σ.sema idx).nsems = σ.semtot
  /-- The loop stays in the pool. -/
  inside : σ'.sem = (rmidShift σ idx).1 ∧ ∀ x ∈ (rmidShift σ idx).2, x < inf.semmns

/-- A set is removed, in any state that any run has reached. All is as it should be if and
    only if as many places are unused as the set has. -/
theorem rmid_compacts (inf : Seminfo) (mem : Nat → Semaphore) (ops : List Op) (σ : State)
    (hrun : runOps (step inf) (init inf mem) ops = some σ) (idx seq : Nat) (hidx : idx < inf.semmni)
    (hvalid : semvalid σ idx seq = true) : Compacted inf σ (rmid inf σ idx seq).1 idx ↔
      σ.semtot + (σ.sema idx).nsems ≤ inf.semmns := by
  have hpacked := packed_run hrun
  rcases rmid_cases inf σ idx seq with heq | ⟨halloc, heq⟩
  · -- The set is removed, so the state is not the old one.
    have hgone : ((rmid inf σ idx seq).1.sema idx).alloc = false := by
      unfold rmid
      rw [if_neg (not_or.mpr ⟨not_le.mpr hidx, not_not.mpr hvalid⟩)]
      simp only [if_pos]
    unfold semvalid at hvalid
    rw [heq] at hgone
    rw [hgone, Bool.false_and] at hvalid
    exact absurd hvalid (by decide)
  have hin := hpacked.layout.inside idx halloc
  have hpos := hpacked.layout.pos idx halloc
  constructor
  · intro h
    -- The last round of the loop.
    have hlast := h.inside.2 (σ.semtot - 1 + (σ.sema idx).nsems)
      ((mem_shiftLoop _ _ _ _).mpr ⟨σ.semtot - 1, by omega, by omega, Or.inl rfl⟩)
    omega
  intro hroom
  refine ⟨?_, fun i hi => hpacked.layout.sameSet_rmid inf seq hi, hpacked.rmid idx seq, ?_,
    rmid_sem hpacked.layout hidx hvalid, fun x hx => ?_⟩
  · rw [heq]
    simp only [if_pos]
  · rw [heq]
    simp only
    omega
  · rcases (mem_shiftLoop _ _ _ _).mp hx with ⟨j, h1, h2, hplace⟩
    omega

/-- Two sets. -/
def twoSets : List Op := [.semget 0 3 true false, .semget 0 5 true false]

theorem rmid_compacts_two : ∃ σ, runOps (step defaults) (init defaults (fun _ => .zero)) twoSets =
    some σ ∧ (Compacted defaults σ (rmid defaults σ 0 1).1 0 ↔
      σ.semtot + (σ.sema 0).nsems ≤ defaults.semmns) := by
  have hval : (runOps (step defaults) (init defaults (fun _ => .zero)) twoSets).map
      (fun σ => semvalid σ 0 1) = some true := by
    decide
  rcases Option.map_eq_some_iff.mp hval with ⟨σ, hσ, hvalid⟩
  exact ⟨σ, hσ, rmid_compacts defaults (fun _ => .zero) twoSets σ hσ 0 1 (by decide) hvalid⟩

/-- Two sets that take up the whole pool. -/
def fullPool : List Op := [.semget 0 200 true false, .semget 0 140 true false]

theorem rmid_overrun : ¬ ∀ (inf : Seminfo) (mem : Nat → Semaphore) (ops : List Op) (σ : State),
    runOps (step inf) (init inf mem) ops = some σ → ∀ idx seq, idx < inf.semmni →
      semvalid σ idx seq = true → Compacted inf σ (rmid inf σ idx seq).1 idx := by
  intro h
  have hval : (runOps (step defaults) (init defaults (fun _ => .zero)) fullPool).map
      (fun σ => (semvalid σ 1 1, decide (σ.semtot = 340), σ.sema 1)) =
        some (true, true, ⟨true, 0, 1, 140, 200⟩) := by
    decide
  rcases Option.map_eq_some_iff.mp hval with ⟨σ, hσ, heq⟩
  rw [Prod.mk.injEq, Prod.mk.injEq] at heq
  have htot := of_decide_eq_true heq.2.1
  have hc := h defaults (fun _ => .zero) fullPool σ hσ 1 1 (by decide) heq.1
  have hlast := hc.inside.2 (339 + 140) ((mem_shiftLoop _ _ _ _).mpr
    ⟨339, by rw [heq.2.2]; decide, by rw [heq.2.2, htot]; decide, Or.inl (by rw [heq.2.2])⟩)
  exact absurd hlast (by decide)

end FreeBSDKern.Sem
