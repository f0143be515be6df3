import FreeBSDKern.Sem.Round

/-!
# Values in Range

The value of a semaphore stays at most `semvmx`: `sys_semop` and the two control
operations check it. The exit hook does not. It adds what it owes, and the value may have
been raised since. Where the sum is in range at every entry it applies, all values are.

The semaphores of the sets lie apart in the pool. This matters when a set is removed:
what lies behind it moves, and every other set finds its own semaphores at its new place
(`SameSet`).

## Main definitions

* `Layout`: The sets lie apart in the used part of the pool.
* `SameSet`: A set has the same semaphores, wherever they are.
* `InRange`: The values of all sets are in range.
* `ExitFits`: What the exit hook adds stays in range.

## Theorems

* `Layout.sameSet_semget`, `Layout.sameSet_rmid`: The other sets are as they were.
* `step_sets`: What a step can do to the sets.
* `inRange_step`: One step.
* `values_in_range`: Every run in which what the exit hook adds stays in range.
* `exit_out_of_range`: A run in which it does not.
-/

namespace FreeBSDKern.Sem

open Lib Function

/-- The sets lie apart in the used part of the pool. -/
structure Layout (σ : State) : Prop where
  inside : ∀ i, (σ.sema i).alloc = true → (σ.sema i).base + (σ.sema i).nsems ≤ σ.semtot
  pos : ∀ i, (σ.sema i).alloc = true → 0 < (σ.sema i).nsems
  apart : ∀ i j, i ≠ j → (σ.sema i).alloc = true → (σ.sema j).alloc = true →
    (σ.sema i).base + (σ.sema i).nsems ≤ (σ.sema j).base ∨
      (σ.sema j).base + (σ.sema j).nsems ≤ (σ.sema i).base

/-- A set is as it was, with its semaphores possibly in another place. -/
structure SameSet (σ σ' : State) (i : Nat) : Prop where
  alloc : (σ'.sema i).alloc = (σ.sema i).alloc
  seq : (σ'.sema i).seq = (σ.sema i).seq
  nsems : (σ'.sema i).nsems = (σ.sema i).nsems
  sem : (σ.sema i).alloc = true → ∀ n < (σ.sema i).nsems,
    σ'.sem ((σ'.sema i).base + n) = σ.sem ((σ.sema i).base + n)

theorem SameSet.refl (σ : State) (i : Nat) : SameSet σ σ i :=
  ⟨rfl, rfl, rfl, fun _ _ _ => rfl⟩

-- The new set of `sys_semget` is the first that is free, and it fits into the pool.
theorem semget_created (inf : Seminfo) (σ : State) (key nsems : Int) (creat excl : Bool) :
    (semget inf σ key nsems creat excl).1 = σ ∨
    ∃ i n, (List.range inf.semmni).find? (fun i => !(σ.sema i).alloc) = some i ∧ 0 < n ∧
      (σ.semtot ≤ inf.semmns → σ.semtot + n ≤ inf.semmns) ∧
      (semget inf σ key nsems creat excl).1 = { σ with
        sema := update σ.sema i ⟨true, key, ((σ.sema i).seq + 1) % 32768, n, σ.semtot⟩
        sem := fun j => if σ.semtot ≤ j ∧ j < σ.semtot + n then Semaphore.zero else σ.sem j
        semtot := σ.semtot + n } := by
  unfold semget
  split
  · split_ifs <;> exact Or.inl rfl
  split
  case isTrue => exact Or.inl rfl
  case isFalse =>
  split
  case isTrue => exact Or.inl rfl
  case isFalse hn =>
  split
  case isTrue => exact Or.inl rfl
  case isFalse hroom =>
  split
  · exact Or.inl rfl
  · rename_i i hfind
    exact Or.inr ⟨i, nsems.toNat, hfind, by omega, fun _ => by omega, rfl⟩

/-- What `sys_semget` can do: nothing, or a new set behind all others. -/
theorem semget_cases (inf : Seminfo) (σ : State) (key nsems : Int) (creat excl : Bool) :
    (semget inf σ key nsems creat excl).1 = σ ∨ ∃ i n, (σ.sema i).alloc = false ∧ 0 < n ∧
      (semget inf σ key nsems creat excl).1 = { σ with
        sema := update σ.sema i ⟨true, key, ((σ.sema i).seq + 1) % 32768, n, σ.semtot⟩
        sem := fun j => if σ.semtot ≤ j ∧ j < σ.semtot + n then Semaphore.zero else σ.sem j
        semtot := σ.semtot + n } := by
  rcases semget_created inf σ key nsems creat excl with heq | ⟨i, n, hfind, hn, -, heq⟩
  · exact Or.inl heq
  · exact Or.inr ⟨i, n, by simpa using List.find?_some hfind, hn, heq⟩

/-- What `IPC_RMID` can do: nothing, or remove the set. -/
theorem rmid_cases (inf : Seminfo) (σ : State) (idx seq : Nat) :
    (rmid inf σ idx seq).1 = σ ∨ ((σ.sema idx).alloc = true ∧ (rmid inf σ idx seq).1 = { σ with
        sema := fun i =>
          if i = idx then { σ.sema idx with alloc := false }
          else if (σ.sema i).alloc ∧ (σ.sema idx).base < (σ.sema i).base then
            { σ.sema i with base := (σ.sema i).base - (σ.sema idx).nsems }
          else σ.sema i
        sem := fun i =>
          if (σ.sema idx).base ≤ i ∧ i < σ.semtot then σ.sem (i + (σ.sema idx).nsems) else σ.sem i
        semtot := σ.semtot - (σ.sema idx).nsems
        undos := semundoClear σ.undos idx none
        sleepers := wakeup σ.sleepers idx }) := by
  unfold rmid
  split_ifs with h
  · exact Or.inl rfl
  refine Or.inr ⟨?_, rfl⟩
  rw [not_or, not_not] at h
  have hvalid := h.2
  unfold semvalid at hvalid
  rw [Bool.and_eq_true] at hvalid
  exact hvalid.1

variable {inf : Seminfo} {σ σ' : State} {j : Nat} {out : Outcome}

theorem Layout.semget (h : Layout σ) (key nsems : Int) (creat excl : Bool) :
    Layout (semget inf σ key nsems creat excl).1 := by
  rcases semget_cases inf σ key nsems creat excl with heq | ⟨i, n, hfree, hn, heq⟩
  · rw [heq]
    exact h
  rw [heq]
  refine ⟨?_, ?_, ?_⟩
  · intro j hj
    by_cases hji : j = i
    · subst hji
      simp only [update_self] at hj ⊢
      omega
    simp only [update_of_ne hji] at hj ⊢
    have := h.inside j hj
    omega
  · intro j hj
    by_cases hji : j = i
    · subst hji
      simp only [update_self]
      exact hn
    · simp only [update_of_ne hji] at hj ⊢
      exact h.pos j hj
  intro j k hjk hj hk
  by_cases hji : j = i
  · subst hji
    simp only [update_self, update_of_ne (Ne.symm hjk)] at hj hk ⊢
    exact Or.inr (h.inside k hk)
  by_cases hki : k = i
  · subst hki
    simp only [update_self, update_of_ne hji] at hj hk ⊢
    exact Or.inl (h.inside j hj)
  · simp only [update_of_ne hji, update_of_ne hki] at hj hk ⊢
    exact h.apart j k hjk hj hk

/-- Where a set begins behind a removal. -/
theorem Layout.rmid_base (h : Layout σ) {idx : Nat} (hj : j ≠ idx)
    (hidx : (σ.sema idx).alloc = true) (hall : (σ.sema j).alloc = true) :
    ((σ.sema idx).base < (σ.sema j).base ∧
      (σ.sema idx).base + (σ.sema idx).nsems ≤ (σ.sema j).base) ∨
    (¬ (σ.sema idx).base < (σ.sema j).base ∧
      (σ.sema j).base + (σ.sema j).nsems ≤ (σ.sema idx).base) := by
  have h1 := h.pos idx hidx
  have h2 := h.pos j hall
  rcases h.apart j idx hj hall hidx with hle | hle <;> omega

theorem Layout.rmid (h : Layout σ) (idx seq : Nat) : Layout (rmid inf σ idx seq).1 := by
  rcases rmid_cases inf σ idx seq with heq | ⟨hidx, heq⟩
  · rw [heq]
    exact h
  rw [heq]
  have htot := h.inside idx hidx
  -- A set that is left was there before, and its place is known.
  have hold : ∀ j, (if j = idx then { σ.sema idx with alloc := false }
      else if (σ.sema j).alloc ∧ (σ.sema idx).base < (σ.sema j).base then
        { σ.sema j with base := (σ.sema j).base - (σ.sema idx).nsems }
      else σ.sema j : Set).alloc = true → j ≠ idx ∧ (σ.sema j).alloc = true := by
    intro j hj
    by_cases hji : j = idx
    · rw [if_pos hji] at hj
      cases hj
    rw [if_neg hji] at hj
    split at hj
    case isTrue hc => exact ⟨hji, hc.1⟩
    case isFalse => exact ⟨hji, hj⟩
  refine ⟨?_, ?_, ?_⟩
  · intro j hj
    rcases hold j hj with ⟨hji, hall⟩
    have hin := h.inside j hall
    simp only [if_neg hji]
    rcases h.rmid_base hji hidx hall with ⟨hlt, hle⟩ | ⟨hlt, hle⟩
    · rw [if_pos ⟨hall, hlt⟩]
      simp only
      omega
    · rw [if_neg (fun hc => hlt hc.2)]
      omega
  · intro j hj
    rcases hold j hj with ⟨hji, hall⟩
    have := h.pos j hall
    simp only [if_neg hji]
    split <;> exact this
  intro j k hjk hj hk
  rcases hold j hj with ⟨hji, hallj⟩
  rcases hold k hk with ⟨hki, hallk⟩
  have hap := h.apart j k hjk hallj hallk
  have hpj := h.pos j hallj
  simp only [if_neg hji, if_neg hki]
  rcases h.rmid_base hji hidx hallj with ⟨hltj, hlej⟩ | ⟨hltj, hlej⟩ <;>
    rcases h.rmid_base hki hidx hallk with ⟨hltk, hlek⟩ | ⟨hltk, hlek⟩
  · rw [if_pos ⟨hallj, hltj⟩, if_pos ⟨hallk, hltk⟩]
    simp only
    omega
  · rw [if_pos ⟨hallj, hltj⟩, if_neg (fun hc => hltk hc.2)]
    simp only
    omega
  · rw [if_neg (fun hc => hltj hc.2), if_pos ⟨hallk, hltk⟩]
    simp only
    omega
  · rw [if_neg (fun hc => hltj hc.2), if_neg (fun hc => hltk hc.2)]
    exact hap

/-- A removed set leaves the others as they were. -/
theorem Layout.sameSet_rmid (inf : Seminfo) (h : Layout σ) {idx : Nat} (seq : Nat) (hj : j ≠ idx) :
    SameSet σ (Sem.rmid inf σ idx seq).1 j := by
  rcases rmid_cases inf σ idx seq with heq | ⟨hidx, heq⟩
  · rw [heq]
    exact SameSet.refl σ j
  rw [heq]
  refine ⟨?_, ?_, ?_, ?_⟩
  · simp only [if_neg hj]
    split <;> rfl
  · simp only [if_neg hj]
    split <;> rfl
  · simp only [if_neg hj]
    split <;> rfl
  intro hall n hn
  have hin := h.inside j hall
  simp only [if_neg hj]
  rcases h.rmid_base hj hidx hall with ⟨hlt, hle⟩ | ⟨hlt, hle⟩
  · simp only [if_pos (And.intro hall hlt)]
    rw [if_pos (by omega)]
    congr 1
    omega
  have hstay : ¬ ((σ.sema j).alloc = true ∧ (σ.sema idx).base < (σ.sema j).base) :=
    fun hc => hlt hc.2
  simp only [if_neg hstay]
  rw [if_neg (by omega)]

/-- A new set leaves the others as they were. -/
theorem Layout.sameSet_semget (inf : Seminfo) (h : Layout σ) (key nsems : Int) (creat excl : Bool)
    (hj : (σ.sema j).alloc = true) : SameSet σ (Sem.semget inf σ key nsems creat excl).1 j := by
  rcases semget_cases inf σ key nsems creat excl with heq | ⟨i, n, hfree, hn, heq⟩
  · rw [heq]
    exact SameSet.refl σ j
  rw [heq]
  have hji : j ≠ i := by
    intro hji
    rw [hji, hfree] at hj
    exact absurd hj (by decide)
  have hin := h.inside j hj
  refine ⟨?_, ?_, ?_, ?_⟩
  · simp only [update_of_ne hji]
  · simp only [update_of_ne hji]
  · simp only [update_of_ne hji]
  intro _ m hm
  simp only [update_of_ne hji]
  rw [if_neg (by omega)]

/-- The sets are the same, and no value leaves the range. -/
structure Keeps (vmx : Nat) (σ σ' : State) : Prop where
  sema : σ'.sema = σ.sema
  semtot : σ'.semtot = σ.semtot
  range : ∀ x, (σ.sem x).val ≤ vmx → (σ'.sem x).val ≤ vmx

theorem attempt_keeps {c : Call} (h : attempt inf σ c = some (σ', out)) :
    Keeps inf.semvmx σ σ' := by
  have hvmx := inf.semvmx_lt
  rcases attempt_cases h with ⟨b, pre, post, -, -, -, -, rfl⟩ | ⟨e, u, -, rfl, -⟩ |
    ⟨u, -, -, -, rfl⟩
  · refine ⟨rfl, rfl, fun x hx => ?_⟩
    simp only [bump_val]
    exact hx
  · exact ⟨rfl, rfl, fun x hx => hx⟩
  refine ⟨rfl, rfl, fun x hx => ?_⟩
  simp only [(setPids_frame _ _ _ _ _).1]
  exact applyOps_range _ _ hvmx _ _ _ _ hx

theorem resume_keeps {i : Nat} {intr : Bool} (h : resume inf σ i intr = some (σ', out)) :
    Keeps inf.semvmx σ σ' := by
  rcases resume_cases h with ⟨t, -, ⟨-, -, rfl⟩ | ⟨-, -, rfl⟩ | ⟨-, hatt⟩⟩
  · exact ⟨rfl, rfl, fun x hx => hx⟩
  · refine ⟨rfl, rfl, fun x hx => ?_⟩
    simp only [bump_val]
    exact hx
  have hkeep := attempt_keeps hatt
  refine ⟨hkeep.sema, hkeep.semtot, fun x hx => hkeep.range x ?_⟩
  simp only [bump_val]
  exact hx

/-- The entry that a step of the exit hook comes to. -/
def pending (σ : State) (k : Nat) : Option Undo :=
  match σ.exiting[k]? with
  | none => none
  | some (s, ix) => (σ.undos.pool s).ents[ix]?

/-- What the exit hook adds stays in range. -/
def ExitFits (inf : Seminfo) (σ : State) : Op → Prop
  | .exitStep k => ∀ e ∈ pending σ k, semvalid σ e.id e.seq = true →
      ((σ.sem ((σ.sema e.id).base + e.num)).val : Int) + e.adjval ≤ inf.semvmx
  | _ => True

instance (inf : Seminfo) (σ : State) (op : Op) : Decidable (ExitFits inf σ op) :=
  match op with
  | .exitStep k => inferInstanceAs (Decidable (∀ e ∈ pending σ k, _ → _))
  | .semget .. => isTrue trivial
  | .semop .. => isTrue trivial
  | .resume .. => isTrue trivial
  | .setval .. => isTrue trivial
  | .setall .. => isTrue trivial
  | .rmid .. => isTrue trivial
  | .exitBegin .. => isTrue trivial

theorem exitStep_keeps {k : Nat} (h : exitStep σ k = some (σ', out))
    (hfits : ExitFits inf σ (.exitStep k)) : Keeps inf.semvmx σ σ' := by
  rcases exitStep_cases h with ⟨s, ix, hk, ⟨e, he, ⟨-, rfl⟩ | ⟨hvalid, -, rfl⟩⟩ | ⟨-, rfl⟩⟩
  · exact ⟨rfl, rfl, fun x hx => hx⟩
  · have hpending : pending σ k = some e := by
      unfold pending
      rw [hk]
      exact he
    have hsum := hfits e hpending hvalid
    have hvmx := inf.semvmx_le
    refine ⟨rfl, rfl, fun x hx => ?_⟩
    by_cases hxe : x = (σ.sema e.id).base + e.num
    · subst hxe
      simp only [setVal_self]
      split
      case isTrue => exact zero_le
      case isFalse hneg =>
        have := ushort_of_nonneg (x := (σ.sem ((σ.sema e.id).base + e.num)).val + e.adjval)
          (by omega) (by omega)
        omega
    · simp only [setVal_of_ne _ _ _ _ hxe]
      exact hx
  · exact ⟨rfl, rfl, fun x hx => hx⟩

/-- What a step can do to the sets: it adds one, it removes one, or it leaves them and keeps
    the values in range. -/
theorem step_sets {op : Op} (h : step inf σ op = some σ') (hfits : ExitFits inf σ op) :
    (∃ key nsems creat excl, σ' = (semget inf σ key nsems creat excl).1) ∨
      (∃ idx seq, σ' = (rmid inf σ idx seq).1) ∨ Keeps inf.semvmx σ σ' := by
  unfold step at h
  rw [Option.map_eq_some_iff] at h
  rcases h with ⟨⟨τ, out⟩, hexec, rfl⟩
  simp only
  cases op with
  | semget key nsems creat excl =>
    simp only [exec, Option.some.injEq] at hexec
    exact Or.inl ⟨key, nsems, creat, excl, by rw [hexec]⟩
  | rmid idx seq =>
    simp only [exec, Option.some.injEq] at hexec
    exact Or.inr (Or.inl ⟨idx, seq, by rw [hexec]⟩)
  | semop c =>
    rcases semop_cases hexec with ⟨rfl, -⟩ | ⟨-, -, hatt⟩
    · exact Or.inr (Or.inr ⟨rfl, rfl, fun x hx => hx⟩)
    · exact Or.inr (Or.inr (attempt_keeps hatt))
  | resume i intr => exact Or.inr (Or.inr (resume_keeps hexec))
  | setval idx seq num val =>
    simp only [exec, Option.some.injEq] at hexec
    have hvmx := inf.semvmx_le
    have hcases := setval_cases inf σ idx seq num val
    rw [hexec] at hcases
    rcases hcases with rfl | ⟨-, -, h0, h1, rfl⟩
    · exact Or.inr (Or.inr ⟨rfl, rfl, fun x hx => hx⟩)
    refine Or.inr (Or.inr ⟨rfl, rfl, fun x hx => ?_⟩)
    by_cases hxn : x = (σ.sema idx).base + num
    · subst hxn
      simp only [setVal_self]
      have := ushort_of_nonneg h0 (by omega)
      omega
    · simp only [setVal_of_ne _ _ _ _ hxn]
      exact hx
  | setall idx seq vals =>
    simp only [exec, Option.some.injEq] at hexec
    have hcases := setall_cases inf σ idx seq vals
    rw [hexec] at hcases
    rcases hcases with rfl | ⟨-, rfl⟩
    · exact Or.inr (Or.inr ⟨rfl, rfl, fun x hx => hx⟩)
    · exact Or.inr (Or.inr ⟨rfl, rfl, fun x hx => setallLoop_range _ _ _ _ _ _ _ hx⟩)
  | exitBegin p =>
    simp only [exec, Option.some.injEq] at hexec
    rcases exitBegin_cases σ p with ⟨u, ex, heq⟩
    rw [hexec] at heq
    subst heq
    exact Or.inr (Or.inr ⟨rfl, rfl, fun x hx => hx⟩)
  | exitStep k => exact Or.inr (Or.inr (exitStep_keeps hexec hfits))

/-- The values of all sets are in range. -/
def InRange (inf : Seminfo) (σ : State) : Prop :=
  ∀ i, (σ.sema i).alloc = true → ∀ n < (σ.sema i).nsems,
    (σ.sem ((σ.sema i).base + n)).val ≤ inf.semvmx

theorem Layout.of_sema (h : Layout σ) (hsema : σ'.sema = σ.sema) (htot : σ'.semtot = σ.semtot) :
    Layout σ' := by
  refine ⟨?_, ?_, ?_⟩
  · rw [hsema, htot]
    exact h.inside
  · rw [hsema]
    exact h.pos
  · rw [hsema]
    exact h.apart

/-- One step, from sets that lie apart and have their values in range. -/
theorem inRange_step {op : Op} (hl : Layout σ) (hr : InRange inf σ) (hfits : ExitFits inf σ op)
    (h : step inf σ op = some σ') : Layout σ' ∧ InRange inf σ' := by
  rcases step_sets h hfits with ⟨key, nsems, creat, excl, rfl⟩ | ⟨idx, seq, rfl⟩ | hkeep
  · refine ⟨hl.semget key nsems creat excl, fun i hi n hn => ?_⟩
    by_cases hold : (σ.sema i).alloc = true
    · have hsame := hl.sameSet_semget inf key nsems creat excl hold
      rw [hsame.nsems] at hn
      rw [hsame.sem hold n hn]
      exact hr i hold n hn
    -- The set is the new one, and its semaphores have been cleared.
    rcases semget_cases inf σ key nsems creat excl with heq | ⟨j, m, -, -, heq⟩
    · rw [heq] at hi
      exact absurd hi hold
    rw [heq] at hi hn ⊢
    by_cases hij : i = j
    · subst hij
      simp only [update_self] at hn ⊢
      rw [if_pos (by omega)]
      exact zero_le
    · simp only [update_of_ne hij] at hi
      exact absurd hi hold
  · refine ⟨hl.rmid idx seq, fun i hi n hn => ?_⟩
    rcases rmid_cases inf σ idx seq with heq | ⟨hidx, heq⟩
    · rw [heq] at hi hn ⊢
      exact hr i hi n hn
    have hne : i ≠ idx := by
      rintro rfl
      rw [heq] at hi
      simp only [if_pos] at hi
      exact absurd hi (by decide)
    have hsame := hl.sameSet_rmid inf seq hne
    rw [hsame.alloc] at hi
    rw [hsame.nsems] at hn
    rw [hsame.sem hi n hn]
    exact hr i hi n hn
  refine ⟨hl.of_sema hkeep.sema hkeep.semtot, fun i hi n hn => ?_⟩
  rw [hkeep.sema] at hi hn ⊢
  exact hkeep.range _ (hr i hi n hn)

theorem Layout.init (inf : Seminfo) (mem : Nat → Semaphore) : Layout (init inf mem) := by
  refine ⟨?_, ?_, ?_⟩
  · intro i h
    exact absurd h (by simp [Sem.init])
  · intro i h
    exact absurd h (by simp [Sem.init])
  · intro i j _ h
    exact absurd h (by simp [Sem.init])

/-- In every run in which what the exit hook adds stays in range, the values of all sets
    are in range. -/
theorem values_in_range (inf : Seminfo) (mem : Nat → Semaphore) (ops : List Op) (t : State)
    (hfits : EveryStep (step inf) (ExitFits inf) (init inf mem) ops)
    (hrun : runOps (step inf) (init inf mem) ops = some t) : InRange inf t := by
  have hinit : Layout (init inf mem) ∧ InRange inf (init inf mem) :=
    ⟨Layout.init inf mem, fun i h => absurd h (by simp [init])⟩
  exact (runOps_invariant_of (step inf) (ExitFits inf) (fun σ => Layout σ ∧ InRange inf σ)
    (fun σ op σ' hP hC hstep => inRange_step hP.1 hP.2 hC hstep) ops (init inf mem) t hinit hfits
    hrun).2

/-- The default limits. -/
def defaults : Seminfo where
  semmni := 50
  semmns := 340
  semmnu := 150
  semmsl := 340
  semopm := 100
  semume := 50
  semvmx := 32767
  semaem := 16384
  semaem_lt := by decide
  semvmx_le := by decide
  semmsl_le := by decide
  semume_le := by decide

/-- A process takes five off a semaphore and exits. -/
def exitOps : List Op :=
  [.semget 0 1 true false, .semop ⟨1, 0, 1, [⟨0, 7, false, false⟩]⟩,
    .semop ⟨1, 0, 1, [⟨0, -5, true, false⟩]⟩, .exitBegin 1, .exitStep 0]

theorem values_in_range_exit :
    ∃ t, runOps (step defaults) (init defaults (fun _ => .zero)) exitOps = some t ∧
      InRange defaults t := by
  have hsome : (runOps (step defaults) (init defaults (fun _ => .zero)) exitOps).isSome = true := by
    decide
  rcases Option.isSome_iff_exists.mp hsome with ⟨t, ht⟩
  exact ⟨t, ht, values_in_range defaults (fun _ => .zero) exitOps t (by decide) ht⟩

/-- A process takes a thousand off a semaphore, another one raises it to the maximum,
    and the first exits. -/
def overflowOps : List Op :=
  [.semget 0 1 true false, .semop ⟨1, 0, 1, [⟨0, 1000, false, false⟩]⟩,
    .semop ⟨1, 0, 1, [⟨0, -1000, true, false⟩]⟩, .semop ⟨2, 0, 1, [⟨0, 32767, false, false⟩]⟩,
    .exitBegin 1, .exitStep 0]

theorem exit_out_of_range : ¬ ∀ (inf : Seminfo) (mem : Nat → Semaphore) (ops : List Op) (t : State),
    runOps (step inf) (init inf mem) ops = some t → InRange inf t := by
  intro h
  have hval : (runOps (step defaults) (init defaults (fun _ => .zero)) overflowOps).map
      (fun t => (t.sema 0, (t.sem 0).val)) = some (⟨true, 0, 1, 1, 0⟩, 33767) := by
    decide
  rcases Option.map_eq_some_iff.mp hval with ⟨t, ht, heq⟩
  rw [Prod.mk.injEq] at heq
  have hrange := h defaults (fun _ => .zero) overflowOps t ht 0
  rw [heq.1] at hrange
  have := hrange rfl 0 (by decide)
  rw [heq.2] at this
  exact absurd this (by decide)

end FreeBSDKern.Sem
