import FreeBSDKern.Sem.Wakeup

/-!
# Threads That Wait

`semncnt` and `semzcnt` of a semaphore are the numbers of threads that sleep in
`sys_semop` for it. A set that is removed wakes its threads, and each of them finds out
when it runs again: until then it still sleeps, with an identifier that nothing
has any more. So what is counted is the threads that sleep with the identifier of a
set that is there. A new set begins with counts of zero, which is right
unless a thread still sleeps with just its identifier: the sequence number of a
place in the table comes round after 32768 sets.

## Main definitions

* `waitsNow`: A thread is counted at a semaphore.
* `Tally`: The counts are right.

## Theorems

* `Tally.change`: Other values, and threads that are woken.
* `Tally.sleep`, `Tally.leave`: A thread falls asleep and comes back.
* `Tally.semget`, `Tally.rmid`: The table of sets changes.
-/

namespace FreeBSDKern.Sem

open Lib

/-- A thread sleeps for a semaphore of a set that is there. -/
def waitsNow (sema : Nat → Set) (i n : Nat) (zero : Bool) (t : Sleeper) : Bool :=
  waits i n zero t && decide (t.call.seq = (sema i).seq)

theorem waitsNow_iff (sema : Nat → Set) (i n : Nat) (zero : Bool) (t : Sleeper) :
    waitsNow sema i n zero t = true ↔
      (t.call.idx = i ∧ t.sop.num = n ∧ decide (t.sop.op = 0) = zero) ∧
        t.call.seq = (sema i).seq := by
  unfold waitsNow
  rw [Bool.and_eq_true, waits_iff, decide_eq_true_iff]

/-- The counts are the numbers of threads asleep, and a thread asleep at a set that is
    there sleeps for one of its semaphores. -/
structure Tally (σ : State) : Prop where
  counted : ∀ i, (σ.sema i).alloc = true → ∀ n < (σ.sema i).nsems, ∀ zero,
    (σ.sem ((σ.sema i).base + n)).cnt zero = σ.sleepers.countP (waitsNow σ.sema i n zero)
  nums : ∀ t ∈ σ.sleepers, semvalid σ t.call.idx t.call.seq = true →
    t.sop ∈ t.call.sops ∧ ∀ b ∈ t.call.sops, b.num < (σ.sema t.call.idx).nsems

variable {σ σ' : State}

theorem semvalid_congr (hsema : σ'.sema = σ.sema) (i s : Nat) :
    semvalid σ' i s = semvalid σ i s := by
  unfold semvalid
  rw [hsema]

theorem Tally.change (h : Tally σ) (hsema : σ'.sema = σ.sema)
    (hcnt : ∀ x zero, (σ'.sem x).cnt zero = (σ.sem x).cnt zero)
    (hwake : σ'.sleepers = σ.sleepers ∨ ∃ idx, σ'.sleepers = wakeup σ.sleepers idx) : Tally σ' := by
  refine ⟨fun i hi n hn zero => ?_, fun t ht hvalid => ?_⟩
  · rw [hsema] at hi hn ⊢
    rw [hcnt, h.counted i hi n hn zero]
    rcases hwake with hw | ⟨idx, hw⟩
    · rw [hw]
    · rw [hw]
      exact (countP_wakeup σ.sleepers idx _ (fun t => rfl)).symm
  rw [semvalid_congr hsema] at hvalid
  rw [hsema]
  rcases hwake with hw | ⟨idx, hw⟩
  · rw [hw] at ht
    exact h.nums t ht hvalid
  rw [hw] at ht
  unfold wakeup at ht
  rw [List.mem_map] at ht
  rcases ht with ⟨t₀, ht₀, rfl⟩
  have hold := h.nums t₀ ht₀
  split at hvalid
  case isTrue hidx =>
    rw [if_pos hidx]
    exact hold hvalid
  case isFalse hidx =>
    rw [if_neg hidx]
    exact hold hvalid

theorem countP_waitsNow_cons (sema : Nat → Set) (t : Sleeper) (ts : List Sleeper) (i n : Nat)
    (zero : Bool) (hseq : t.call.seq = (sema t.call.idx).seq) :
    (t :: ts).countP (waitsNow sema i n zero) = ts.countP (waitsNow sema i n zero) +
      if i = t.call.idx ∧ n = t.sop.num ∧ decide (t.sop.op = 0) = zero then 1 else 0 := by
  rw [List.countP_cons]
  by_cases hc : i = t.call.idx ∧ n = t.sop.num ∧ decide (t.sop.op = 0) = zero
  · rw [if_pos hc, if_pos ((waitsNow_iff _ _ _ _ _).mpr
      ⟨⟨hc.1.symm, hc.2.1.symm, hc.2.2⟩, hc.1 ▸ hseq⟩)]
  have hw : ¬ waitsNow sema i n zero t = true := by
    intro hw
    rw [waitsNow_iff] at hw
    exact hc ⟨hw.1.1.symm, hw.1.2.1.symm, hw.1.2.2⟩
  rw [if_neg hc, if_neg hw]

/-- A call falls asleep at a semaphore whose count has room. -/
theorem Tally.sleep (h : Tally σ) (hl : Layout σ) (c : Call) (b : Sembuf)
    (hvalid : semvalid σ c.idx c.seq = true) (hb : b ∈ c.sops)
    (hnums : ∀ d ∈ c.sops, d.num < (σ.sema c.idx).nsems)
    (hroom : (σ.sem ((σ.sema c.idx).base + b.num)).cnt (decide (b.op = 0)) < 65535) : Tally { σ with
      sem := bump σ.sem ((σ.sema c.idx).base + b.num) b 1
      sleepers := ⟨c, b, false⟩ :: σ.sleepers } := by
  rcases (semvalid_iff _ _ _).mp hvalid with ⟨hall, hseq⟩
  have hcons := fun i n zero =>
    countP_waitsNow_cons σ.sema ⟨c, b, false⟩ σ.sleepers i n zero hseq.symm
  refine ⟨?_, fun t ht hv => ?_⟩
  · refine counts_bumped hl (waitsNow σ.sema) h.counted c.idx b 1 _ hall (hnums b hb) ?_ ?_
    · rw [hcons, if_pos ⟨rfl, rfl, rfl⟩, ← h.counted c.idx hall b.num (hnums b hb)]
      omega
    intro i n zero
    rw [hcons]
    split <;> simp
  rcases List.mem_cons.mp ht with rfl | ht
  · exact ⟨hb, hnums⟩
  · exact h.nums t ht hv

/-- A thread comes back to a set that is still there. -/
theorem Tally.leave (h : Tally σ) (hl : Layout σ) {i : Nat} {t : Sleeper}
    (ht : σ.sleepers[i]? = some t) (hvalid : semvalid σ t.call.idx t.call.seq = true) :
    Tally { σ with
      sem := bump σ.sem ((σ.sema t.call.idx).base + t.sop.num) t.sop (-1)
      sleepers := σ.sleepers.eraseIdx i } := by
  rcases List.getElem?_eq_some_iff.mp ht with ⟨hi, hget⟩
  have hperm := List.getElem_cons_eraseIdx_perm hi
  rw [hget] at hperm
  have hmem : t ∈ σ.sleepers := hget ▸ List.getElem_mem hi
  rcases (semvalid_iff _ _ _).mp hvalid with ⟨hall, hseq⟩
  rcases h.nums t hmem hvalid with ⟨hsop, hnums⟩
  have hcons : ∀ j n zero, σ.sleepers.countP (waitsNow σ.sema j n zero) =
      (σ.sleepers.eraseIdx i).countP (waitsNow σ.sema j n zero) +
        if j = t.call.idx ∧ n = t.sop.num ∧ decide (t.sop.op = 0) = zero then 1 else 0 := by
    intro j n zero
    rw [← hperm.countP_eq]
    exact countP_waitsNow_cons σ.sema t _ j n zero hseq.symm
  refine ⟨?_, fun t' ht' hv => h.nums t' (List.mem_of_mem_eraseIdx ht') hv⟩
  refine counts_bumped hl (waitsNow σ.sema) h.counted t.call.idx t.sop (-1) _ hall
    (hnums _ hsop) ?_ ?_
  · have hcount := hcons t.call.idx t.sop.num (decide (t.sop.op = 0))
    rw [← h.counted t.call.idx hall t.sop.num (hnums _ hsop), if_pos ⟨rfl, rfl, rfl⟩] at hcount
    have hlt : (σ.sem ((σ.sema t.call.idx).base + t.sop.num)).cnt (decide (t.sop.op = 0)) <
        65536 := by
      unfold Semaphore.cnt
      split
      · exact (σ.sem _).zcnt_lt
      · exact (σ.sem _).ncnt_lt
    dsimp only
    omega
  intro j n zero
  rw [hcons]
  split
  · push_cast
    omega
  · simp

/-- A thread comes back to a set that is gone. -/
theorem Tally.gone (h : Tally σ) {i : Nat} {t : Sleeper} (ht : σ.sleepers[i]? = some t)
    (hvalid : semvalid σ t.call.idx t.call.seq = false) :
    Tally { σ with sleepers := σ.sleepers.eraseIdx i } := by
  rcases List.getElem?_eq_some_iff.mp ht with ⟨hi, hget⟩
  have hperm := List.getElem_cons_eraseIdx_perm hi
  rw [hget] at hperm
  refine ⟨fun j hj n hn zero => ?_, fun t' ht' hv => h.nums t' (List.mem_of_mem_eraseIdx ht') hv⟩
  rw [h.counted j hj n hn zero, ← hperm.countP_eq, List.countP_cons]
  have hw : ¬ waitsNow σ.sema j n zero t = true := by
    intro hw
    rw [waitsNow_iff] at hw
    rw [(semvalid_iff _ _ _).mpr ⟨hw.1.1 ▸ hj, hw.1.1 ▸ hw.2.symm⟩] at hvalid
    exact absurd hvalid (by decide)
  rw [if_neg hw, Nat.add_zero]

/-- The table of sets changes, and the sets that stay are the same. -/
theorem Tally.of_sets (h : Tally σ)
    (hstay : ∀ i, (σ'.sema i).alloc = true → ((σ.sema i).alloc = true ∧ SameSet σ σ' i) ∨
      ((∀ n < (σ'.sema i).nsems, ∀ zero, (σ'.sem ((σ'.sema i).base + n)).cnt zero = 0) ∧
        ∀ t ∈ σ.sleepers, t.call.idx = i → t.call.seq ≠ (σ'.sema i).seq))
    (hwake : σ'.sleepers = σ.sleepers ∨ ∃ idx, σ'.sleepers = wakeup σ.sleepers idx) : Tally σ' := by
  have hcountP : ∀ i n zero, σ'.sleepers.countP (waitsNow σ'.sema i n zero) =
      σ.sleepers.countP (waitsNow σ'.sema i n zero) := by
    intro i n zero
    rcases hwake with hw | ⟨idx, hw⟩
    · rw [hw]
    · rw [hw]
      exact countP_wakeup σ.sleepers idx _ (fun t => rfl)
  refine ⟨fun i hi n hn zero => ?_, fun t ht hvalid => ?_⟩
  · rw [hcountP]
    rcases hstay i hi with ⟨hall, hsame⟩ | ⟨hzero, hnew⟩
    · rw [hsame.nsems] at hn
      rw [hsame.sem hall n hn, h.counted i hall n hn zero]
      refine List.countP_congr (fun t _ => ?_)
      rw [waitsNow_iff, waitsNow_iff, hsame.seq]
    rw [hzero n hn zero]
    refine (List.countP_eq_zero.mpr (fun t ht hw => ?_)).symm
    rw [waitsNow_iff] at hw
    exact hnew t ht hw.1.1 hw.2
  -- The thread as it was before it was woken.
  have hold : ∃ t₀ ∈ σ.sleepers, t.call = t₀.call ∧ t.sop = t₀.sop := by
    rcases hwake with hw | ⟨idx, hw⟩
    · exact ⟨t, hw ▸ ht, rfl, rfl⟩
    rw [hw] at ht
    unfold wakeup at ht
    rw [List.mem_map] at ht
    rcases ht with ⟨t₀, ht₀, rfl⟩
    refine ⟨t₀, ht₀, ?_, ?_⟩
    · split <;> rfl
    · split <;> rfl
  rcases hold with ⟨t₀, ht₀, hcall, hsop⟩
  rw [hcall] at hvalid ⊢
  rw [hsop]
  rcases (semvalid_iff _ _ _).mp hvalid with ⟨hi, hseq⟩
  rcases hstay _ hi with ⟨hall, hsame⟩ | ⟨-, hnew⟩
  · rw [hsame.nsems]
    exact h.nums t₀ ht₀ ((semvalid_iff _ _ _).mpr ⟨hall, hsame.seq ▸ hseq⟩)
  · exact absurd hseq.symm (hnew t₀ ht₀ rfl)

/-- The identifier of a new set is not one that a thread still sleeps with. -/
def FreshId (inf : Seminfo) (σ : State) : Prop :=
  ∀ i ∈ (List.range inf.semmni).find? (fun i => !(σ.sema i).alloc), ∀ t ∈ σ.sleepers,
    t.call.idx = i → t.call.seq ≠ ((σ.sema i).seq + 1) % 32768

theorem Tally.semget {inf : Seminfo} (h : Tally σ) (hl : Layout σ) (hfresh : FreshId inf σ)
    (key nsems : Int) (creat excl : Bool) : Tally (semget inf σ key nsems creat excl).1 := by
  have hsame := fun i hi => hl.sameSet_semget inf key nsems creat excl (j := i) hi
  rcases semget_created inf σ key nsems creat excl with heq | ⟨j, m, hfind, -, -, heq⟩
  · rw [heq]
    exact h
  refine h.of_sets (fun i hi => ?_) ?_
  · by_cases hold : (σ.sema i).alloc = true
    · exact Or.inl ⟨hold, hsame i hold⟩
    have hij : i = j := by
      by_contra hij
      rw [heq] at hi
      simp only [Function.update_of_ne hij] at hi
      exact hold hi
    subst hij
    rw [heq]
    simp only [Function.update_self]
    refine Or.inr ⟨fun n hn zero => ?_, hfresh i hfind⟩
    rw [if_pos (by omega)]
    cases zero <;> rfl
  · rw [heq]
    exact Or.inl rfl

theorem Tally.rmid {inf : Seminfo} (h : Tally σ) (hl : Layout σ) (idx seq : Nat) :
    Tally (rmid inf σ idx seq).1 := by
  rcases rmid_cases inf σ idx seq with heq | ⟨hidx, heq⟩
  · rw [heq]
    exact h
  refine h.of_sets (fun i hi => ?_) ?_
  · have hne : i ≠ idx := by
      rintro rfl
      rw [heq] at hi
      simp only [if_pos] at hi
      exact absurd hi (by decide)
    have hsame := hl.sameSet_rmid inf seq hne
    exact Or.inl ⟨hsame.alloc ▸ hi, hsame⟩
  · rw [heq]
    exact Or.inr ⟨idx, rfl⟩

end FreeBSDKern.Sem
