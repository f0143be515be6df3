import FreeBSDKern.Sem.Range

/-!
# Wakeups

A call that cannot get through its vector sleeps, and is counted at the semaphore of the
operation it could not do. Who changes a semaphore decides by these counts whether
there is someone to wake: an increment wakes if someone waits for a larger value, and a
value that becomes zero wakes if someone waits for zero. Storing a value wakes always.

That is enough where a call that waits for zero has not decremented the same
semaphore before, in its own vector. Where it has, the value it waits for is not zero,
and reaching that value wakes nobody.

The counts are `u_short`, so they are counts only while they do not wrap.

## Main definitions

* `ZeroClean`: No wait for zero behind a net decrement of the same semaphore.
* `Watched`: The steps of a run on sets that are not removed.
* `Watch`: The sleepers are counted, and who has not been woken is still blocked.
* `NoLostWakeup`: What the wakeups should do.

## Theorems

* `Watch.change`: A change of values.
* `Watch.attempt`: One round.
* `no_lost_wakeup`: Every run of such steps.
* `wakeup_lost`: A run in which a wakeup is lost.
-/

namespace FreeBSDKern.Sem

open Lib Function

/-- No wait for zero stands behind a net decrement of the same semaphore. -/
def ZeroClean (sops : List Sembuf) : Prop :=
  ∀ i < sops.length, ∀ b ∈ sops[i]?, b.op = 0 → b.nowait = false → 0 ≤ netAt 0 (sops.take i) b.num

instance (sops : List Sembuf) : Decidable (ZeroClean sops) :=
  inferInstanceAs (Decidable (∀ i < sops.length, ∀ b ∈ sops[i]?, _ → _ → _))

theorem ZeroClean.net {sops pre post : List Sembuf} {b : Sembuf} (h : ZeroClean sops)
    (hsplit : sops = pre ++ b :: post) (hop : b.op = 0) (hwait : b.nowait = false) :
    0 ≤ netAt 0 pre b.num := by
  have hlen : pre.length < sops.length := by
    rw [hsplit, List.length_append, List.length_cons]
    omega
  have hget : sops[pre.length]? = some b := by
    rw [hsplit, List.getElem?_append_right le_rfl, Nat.sub_self]
    rfl
  have := h pre.length hlen b hget hop hwait
  rwa [hsplit, List.take_left'] at this
  rfl

theorem netAt_base (base n : Nat) (sops : List Sembuf) :
    netAt base sops (base + n) = netAt 0 sops n := by
  induction sops with
  | nil => rfl
  | cons b rest ih =>
    rw [netAt, netAt, ih]
    congr 1
    by_cases h : b.num = n
    · rw [if_pos (by omega), if_pos (by omega)]
    · rw [if_neg (by omega), if_neg (by omega)]

/-- A semaphore that a vector does not name is left alone. -/
theorem netAt_eq_zero (base x : Nat) (sops : List Sembuf) (h : ∀ b ∈ sops, base + b.num ≠ x) :
    netAt base sops x = 0 := by
  induction sops with
  | nil => rfl
  | cons b rest ih =>
    rw [netAt, if_neg (h b List.mem_cons_self), Int.zero_add]
    exact ih (fun c hc => h c (List.mem_cons_of_mem _ hc))

/-- The sleepers that are counted at a semaphore, for one of its two counts. -/
def waits (idx n : Nat) (zero : Bool) (t : Sleeper) : Bool :=
  decide (t.call.idx = idx) && decide (t.sop.num = n) && (decide (t.sop.op = 0) == zero)

theorem waits_iff (idx n : Nat) (zero : Bool) (t : Sleeper) : waits idx n zero t = true ↔
      t.call.idx = idx ∧ t.sop.num = n ∧ decide (t.sop.op = 0) = zero := by
  unfold waits
  rw [Bool.and_eq_true, Bool.and_eq_true, decide_eq_true_iff, decide_eq_true_iff, beq_iff_eq,
    and_assoc]

/-- The two counts of a semaphore. -/
def Semaphore.cnt (s : Semaphore) (zero : Bool) : Nat := if zero then s.zcnt else s.ncnt

theorem bump_cnt (sem : Nat → Semaphore) (x y : Nat) (b : Sembuf) (delta : Int) (zero : Bool) :
    (bump sem x b delta y).cnt zero =
      if y = x ∧ decide (b.op = 0) = zero then ushort ((sem y).cnt zero + delta)
      else (sem y).cnt zero := by
  unfold bump Semaphore.cnt
  by_cases hy : y = x
  · subst hy
    rw [update_self]
    by_cases hop : b.op = 0
    · cases zero <;> simp [hop]
    · cases zero <;> simp [hop]
  · have hno : ¬ (y = x ∧ decide (b.op = 0) = zero) := fun h => hy h.1
    rw [update_of_ne hy, if_neg hno]

/-- The sleepers of a set. -/
def asleepAt (σ : State) (idx : Nat) : Nat :=
  σ.sleepers.countP (fun t => decide (t.call.idx = idx))

/-- A sleeper: its set is there, it could not do one operation of its vector, and
    if it has not been woken it still cannot. -/
structure Stuck (σ : State) (t : Sleeper) : Prop where
  valid : semvalid σ t.call.idx t.call.seq = true
  nums : ∀ b ∈ t.call.sops, b.num < (σ.sema t.call.idx).nsems
  clean : ZeroClean t.call.sops
  blocked : ∃ pre post, t.call.sops = pre ++ t.sop :: post ∧
    (t.sop.op = 0 → 0 ≤ netAt 0 pre t.sop.num) ∧ (t.woken = false →
      Blocks t.sop ((σ.sem ((σ.sema t.call.idx).base + t.sop.num)).val + netAt 0 pre t.sop.num))

/-- The sleepers are counted, and who has not been woken is still blocked. -/
structure Watch (σ : State) : Prop where
  layout : Layout σ
  stuck : ∀ t ∈ σ.sleepers, Stuck σ t
  counted : ∀ i, (σ.sema i).alloc = true → ∀ n < (σ.sema i).nsems, ∀ zero,
    (σ.sem ((σ.sema i).base + n)).cnt zero = σ.sleepers.countP (waits i n zero)
  few : ∀ i, asleepAt σ i < 65536

/-- An operation stays blocked if the value does not grow where it waits for more,
    and does not become zero where it waits for zero. -/
theorem Blocks.of_le {b : Sembuf} {v v' : Nat} {net : Int} (h : Blocks b (v + net))
    (hneg : b.op ≠ 0 → v' ≤ v) (hzero : b.op = 0 → 0 ≤ net ∧ (v ≠ 0 → v' ≠ 0)) :
    Blocks b (v' + net) := by
  unfold Blocks at h ⊢
  rcases h with ⟨hop, hlt⟩ | ⟨hop, hne⟩
  · have := hneg (by omega)
    left
    omega
  right
  rcases hzero hop with ⟨hnet, hv⟩
  refine ⟨hop, ?_⟩
  by_cases hv0 : v = 0
  · omega
  · have := hv hv0
    omega

variable {σ σ' : State} {t : Sleeper} {inf : Seminfo}

theorem Stuck.mem (h : Stuck σ t) : t.sop ∈ t.call.sops := by
  rcases h.blocked with ⟨pre, post, hsplit, -⟩
  rw [hsplit]
  exact List.mem_append_cons_self

theorem countP_wakeup (ts : List Sleeper) (idx : Nat) (p : Sleeper → Bool)
    (hp : ∀ t, p { t with woken := true } = p t) : (wakeup ts idx).countP p = ts.countP p := by
  unfold wakeup
  rw [List.countP_map]
  refine List.countP_congr (fun t _ => ?_)
  simp only [comp]
  split
  case isTrue => rw [hp]
  case isFalse => exact Iff.rfl

/-- A sleeper is counted, so the count is not zero. -/
theorem Watch.cnt_pos (h : Watch σ) (ht : t ∈ σ.sleepers) :
    0 < (σ.sem ((σ.sema t.call.idx).base + t.sop.num)).cnt (decide (t.sop.op = 0)) := by
  have hs := h.stuck t ht
  rw [h.counted t.call.idx ((semvalid_iff _ _ _).mp hs.valid).1 t.sop.num (hs.nums _ hs.mem)]
  exact List.countP_pos_iff.mpr ⟨t, ht, (waits_iff _ _ _ _).mpr ⟨rfl, rfl, rfl⟩⟩

/-- A change of the values of one set: everyone who sleeps there is woken, or no
    value changes in a way that someone who is counted waits for. -/
theorem Watch.change (h : Watch σ) (idx : Nat) (hall : (σ.sema idx).alloc = true)
    (hsema : σ'.sema = σ.sema) (htot : σ'.semtot = σ.semtot)
    (hcnt : ∀ x zero, (σ'.sem x).cnt zero = (σ.sem x).cnt zero)
    (hout : ∀ x, x < (σ.sema idx).base ∨ (σ.sema idx).base + (σ.sema idx).nsems ≤ x →
      (σ'.sem x).val = (σ.sem x).val)
    (hwake : σ'.sleepers = wakeup σ.sleepers idx ∨ (σ'.sleepers = σ.sleepers ∧ ∀ x,
      (0 < (σ.sem x).cnt false → (σ'.sem x).val ≤ (σ.sem x).val) ∧
      (0 < (σ.sem x).cnt true → (σ.sem x).val ≠ 0 → (σ'.sem x).val ≠ 0))) : Watch σ' := by
  have hvalid : ∀ i s, semvalid σ' i s = semvalid σ i s := by
    intro i s
    unfold semvalid
    rw [hsema]
  -- A sleeper with another mark is stuck if the value it waits at allows it.
  have hkeep : ∀ t w, Stuck σ t → (w = false → t.woken = false ∧
      (t.sop.op ≠ 0 → (σ'.sem ((σ.sema t.call.idx).base + t.sop.num)).val ≤
        (σ.sem ((σ.sema t.call.idx).base + t.sop.num)).val) ∧
      (t.sop.op = 0 → (σ.sem ((σ.sema t.call.idx).base + t.sop.num)).val ≠ 0 →
        (σ'.sem ((σ.sema t.call.idx).base + t.sop.num)).val ≠ 0)) →
      Stuck σ' { t with woken := w } := by
    intro t w hs hval
    rcases hs.blocked with ⟨pre, post, hsplit, hnet, hblocks⟩
    refine ⟨by rw [hvalid]; exact hs.valid, by rw [hsema]; exact hs.nums, hs.clean, pre, post,
      hsplit, hnet, fun hw => ?_⟩
    rcases hval hw with ⟨hwoken, hle, hne⟩
    rw [hsema]
    exact (hblocks hwoken).of_le hle (fun hop => ⟨hnet hop, hne hop⟩)
  have hcountP : ∀ p : Sleeper → Bool, (∀ t, p { t with woken := true } = p t) →
      σ'.sleepers.countP p = σ.sleepers.countP p := by
    intro p hp
    rcases hwake with hw | ⟨hw, -⟩
    · rw [hw]
      exact countP_wakeup _ _ _ hp
    · rw [hw]
  refine ⟨h.layout.of_sema hsema htot, ?_, ?_, ?_⟩
  · intro t ht
    rcases hwake with hw | ⟨hw, hvals⟩
    · rw [hw] at ht
      unfold wakeup at ht
      rw [List.mem_map] at ht
      rcases ht with ⟨t₀, ht₀, rfl⟩
      have hs := h.stuck t₀ ht₀
      split
      case isTrue => exact hkeep t₀ true hs (fun hw => absurd hw (by decide))
      case isFalse hne =>
      -- The sleeper is at another set, and its value has not changed.
      have hsame : (σ'.sem ((σ.sema t₀.call.idx).base + t₀.sop.num)).val =
          (σ.sem ((σ.sema t₀.call.idx).base + t₀.sop.num)).val := by
        have hn := hs.nums _ hs.mem
        refine hout _ ?_
        rcases h.layout.apart t₀.call.idx idx hne ((semvalid_iff _ _ _).mp hs.valid).1 hall with
          hle | hle <;> omega
      have := hkeep t₀ t₀.woken hs (fun hw => ⟨hw, fun _ => by rw [hsame],
        fun _ hv => by rw [hsame]; exact hv⟩)
      exact this
    rw [hw] at ht
    have hpos := h.cnt_pos ht
    exact hkeep t t.woken (h.stuck t ht) (fun hwoken => ⟨hwoken,
      fun hop => (hvals _).1 (by rwa [decide_eq_false hop] at hpos),
      fun hop => (hvals _).2 (by rwa [decide_eq_true hop] at hpos)⟩)
  · intro i hi n hn zero
    rw [hsema] at hi hn ⊢
    rw [hcnt, hcountP _ (fun t => rfl)]
    exact h.counted i hi n hn zero
  intro i
  have := h.few i
  unfold asleepAt at this ⊢
  rwa [hcountP _ (fun t => rfl)]

-- The counts when one sleeper is counted more or less at a place. `p` says which
-- sleepers are counted where.
theorem counts_bumped (hl : Layout σ) (p : Nat → Nat → Bool → Sleeper → Bool)
    (hcounted : ∀ i, (σ.sema i).alloc = true → ∀ n < (σ.sema i).nsems, ∀ zero,
      (σ.sem ((σ.sema i).base + n)).cnt zero = σ.sleepers.countP (p i n zero)) (idx : Nat)
    (b : Sembuf) (delta : Int) (ts : List Sleeper) (hall : (σ.sema idx).alloc = true)
    (hb : b.num < (σ.sema idx).nsems) (hfew : ts.countP (p idx b.num (decide (b.op = 0))) < 65536)
    (hts : ∀ i n zero, (ts.countP (p i n zero) : Int) = σ.sleepers.countP (p i n zero) +
      if i = idx ∧ n = b.num ∧ decide (b.op = 0) = zero then delta else 0) :
    ∀ i, (σ.sema i).alloc = true → ∀ n < (σ.sema i).nsems, ∀ zero,
      (bump σ.sem ((σ.sema idx).base + b.num) b delta ((σ.sema i).base + n)).cnt zero =
        ts.countP (p i n zero) := by
  intro i hi n hn zero
  have hcount := hts i n zero
  have hold := hcounted i hi n hn zero
  -- Two semaphores of sets are one only if their sets and numbers are.
  have hplace : (σ.sema i).base + n = (σ.sema idx).base + b.num ↔ i = idx ∧ n = b.num := by
    constructor
    · intro heq
      by_cases hii : i = idx
      · subst hii
        exact ⟨rfl, by omega⟩
      · rcases hl.apart i idx hii hi hall with hle | hle <;> omega
    · rintro ⟨rfl, rfl⟩
      rfl
  rw [bump_cnt, hold]
  by_cases hc : i = idx ∧ n = b.num ∧ decide (b.op = 0) = zero
  · rw [if_pos ⟨hplace.mpr ⟨hc.1, hc.2.1⟩, hc.2.2⟩]
    rw [if_pos hc] at hcount
    rw [← hcount]
    rw [hc.1, hc.2.1, ← hc.2.2]
    exact ushort_natCast _ hfew
  rw [if_neg (fun hc' => hc ⟨(hplace.mp hc'.1).1, (hplace.mp hc'.1).2, hc'.2⟩)]
  rw [if_neg hc, Int.add_zero] at hcount
  exact_mod_cast hcount.symm

/-- The counts of a set at a place, when one sleeper is counted more or less there. -/
theorem Watch.bumped (h : Watch σ) (idx : Nat) (b : Sembuf) (delta : Int) (ts : List Sleeper)
    (hall : (σ.sema idx).alloc = true) (hb : b.num < (σ.sema idx).nsems)
    (hfew : ts.countP (fun t => decide (t.call.idx = idx)) < 65536)
    (hts : ∀ i n zero, (ts.countP (waits i n zero) : Int) = σ.sleepers.countP (waits i n zero) +
      if i = idx ∧ n = b.num ∧ decide (b.op = 0) = zero then delta else 0) :
    ∀ i, (σ.sema i).alloc = true → ∀ n < (σ.sema i).nsems, ∀ zero,
      (bump σ.sem ((σ.sema idx).base + b.num) b delta ((σ.sema i).base + n)).cnt zero =
        ts.countP (waits i n zero) := by
  refine counts_bumped h.layout waits h.counted idx b delta ts hall hb ?_ hts
  refine lt_of_le_of_lt (List.countP_mono_left (fun t _ ht => ?_)) hfew
  rw [waits_iff] at ht
  exact decide_eq_true ht.1

theorem Stuck.of_val (h : Stuck σ t) (hsema : σ'.sema = σ.sema)
    (hval : ∀ x, (σ'.sem x).val = (σ.sem x).val) : Stuck σ' t := by
  rcases h.blocked with ⟨pre, post, hsplit, hnet, hblocks⟩
  refine ⟨?_, by rw [hsema]; exact h.nums, h.clean, pre, post, hsplit, hnet, ?_⟩
  · unfold semvalid
    rw [hsema]
    exact h.valid
  · rw [hsema, hval]
    exact hblocks

theorem countP_waits_cons (t : Sleeper) (ts : List Sleeper) (i n : Nat) (zero : Bool) :
    (t :: ts).countP (waits i n zero) = ts.countP (waits i n zero) +
      if i = t.call.idx ∧ n = t.sop.num ∧ decide (t.sop.op = 0) = zero then 1 else 0 := by
  rw [List.countP_cons]
  by_cases hc : i = t.call.idx ∧ n = t.sop.num ∧ decide (t.sop.op = 0) = zero
  · rw [if_pos hc, if_pos ((waits_iff _ _ _ _).mpr ⟨hc.1.symm, hc.2.1.symm, hc.2.2⟩)]
  have hw : ¬ waits i n zero t = true := by
    intro hw
    rw [waits_iff] at hw
    exact hc ⟨hw.1.symm, hw.2.1.symm, hw.2.2⟩
  rw [if_neg hc, if_neg hw]

/-- A call falls asleep. -/
theorem Watch.sleep (h : Watch σ) (c : Call) (b : Sembuf) (hs : Stuck σ ⟨c, b, false⟩)
    (hfew : asleepAt σ c.idx + 1 < 65536) : Watch { σ with
      sem := bump σ.sem ((σ.sema c.idx).base + b.num) b 1
      sleepers := ⟨c, b, false⟩ :: σ.sleepers } := by
  have hall := ((semvalid_iff _ _ _).mp hs.valid).1
  have hfew' : ∀ i, (Sleeper.mk c b false :: σ.sleepers).countP
      (fun t => decide (t.call.idx = i)) < 65536 := by
    intro i
    have hi := h.few i
    unfold asleepAt at hi hfew
    rw [List.countP_cons]
    by_cases hci : c.idx = i
    · subst hci
      simp only [decide_true, if_true]
      exact hfew
    · simp only [decide_eq_false hci, Bool.false_eq_true, if_false, Nat.add_zero]
      exact hi
  refine ⟨h.layout.of_sema rfl rfl, ?_, ?_, hfew'⟩
  · intro t ht
    have hstuck : Stuck σ t := by
      rcases List.mem_cons.mp ht with rfl | ht
      · exact hs
      · exact h.stuck t ht
    exact hstuck.of_val rfl (fun x => bump_val _ _ _ _ _)
  refine h.bumped c.idx b 1 _ hall (hs.nums b hs.mem) (hfew' c.idx) ?_
  intro i n zero
  rw [countP_waits_cons]
  split <;> simp

/-- A sleeper wakes and is no longer counted. -/
theorem Watch.leave (h : Watch σ) {i : Nat} (ht : σ.sleepers[i]? = some t) : Watch { σ with
      sem := bump σ.sem ((σ.sema t.call.idx).base + t.sop.num) t.sop (-1)
      sleepers := σ.sleepers.eraseIdx i } := by
  rcases List.getElem?_eq_some_iff.mp ht with ⟨hi, hget⟩
  have hperm := List.getElem_cons_eraseIdx_perm hi
  rw [hget] at hperm
  have hmem : t ∈ σ.sleepers := hget ▸ List.getElem_mem hi
  have hs := h.stuck t hmem
  have hall := ((semvalid_iff _ _ _).mp hs.valid).1
  have hfew' : ∀ j, (σ.sleepers.eraseIdx i).countP (fun t => decide (t.call.idx = j)) < 65536 :=
    fun j => lt_of_le_of_lt (List.eraseIdx_sublist _ _).countP_le (h.few j)
  refine ⟨h.layout.of_sema rfl rfl, ?_, ?_, hfew'⟩
  · intro t' ht'
    exact (h.stuck t' (List.mem_of_mem_eraseIdx ht')).of_val rfl (fun x => bump_val _ _ _ _ _)
  refine h.bumped t.call.idx t.sop (-1) _ hall (hs.nums _ hs.mem) (hfew' _) ?_
  intro j n zero
  rw [← hperm.countP_eq, countP_waits_cons]
  split
  · push_cast
    omega
  · simp

/-- The undo structures and the list of the exit hook do not matter here. -/
theorem Watch.congr (h : Watch σ) (u : Undos) (ex : List (Nat × Nat)) :
    Watch { σ with undos := u, exiting := ex } :=
  ⟨h.layout.of_sema rfl rfl, fun t ht => (h.stuck t ht).of_val rfl (fun _ => rfl), h.counted, h.few⟩

theorem Watch.attempt {c : Call} {out : Outcome} (h : Watch σ)
    (hvalid : semvalid σ c.idx c.seq = true) (hnums : ∀ b ∈ c.sops, b.num < (σ.sema c.idx).nsems)
    (hclean : ZeroClean c.sops) (hfew : asleepAt σ c.idx + 1 < 65536)
    (hatt : attempt inf σ c = some (σ', out)) : Watch σ' := by
  have hvmx := inf.semvmx_lt
  have hall := ((semvalid_iff _ _ _).mp hvalid).1
  rcases attempt_cases hatt with ⟨b, pre, post, -, hsplit, hwait, hblocks, rfl⟩ | ⟨e, u, -, rfl, -⟩ |
    ⟨u, -, -, -, rfl⟩
  · rw [netAt_base] at hblocks
    exact h.sleep c b ⟨hvalid, hnums, hclean, pre, post, hsplit,
      fun hop => hclean.net hsplit hop hwait, fun _ => hblocks⟩ hfew
  · exact h.congr u σ.exiting
  have hval := applyOps_val inf.semvmx (σ.sema c.idx).base hvmx c.sops σ.sem false
  refine h.change c.idx hall rfl rfl ?_ ?_ ?_
  · intro x zero
    unfold Semaphore.cnt
    simp only [(setPids_frame _ _ _ _ _).2.1, (setPids_frame _ _ _ _ _).2.2, (hval x).2.2.1,
      (hval x).2.2.2]
  · intro x hx
    have hnet : netAt (σ.sema c.idx).base (c.sops.take
        (applyOps inf.semvmx (σ.sema c.idx).base c.sops σ.sem false).count) x = 0 := by
      refine netAt_eq_zero _ _ _ (fun b hb => ?_)
      have := hnums b (List.mem_of_mem_take hb)
      omega
    have := (hval x).1
    rw [hnet] at this
    simp only [(setPids_frame _ _ _ _ _).1]
    omega
  cases hw : (applyOps inf.semvmx (σ.sema c.idx).base c.sops σ.sem false).wake with
  | true => exact Or.inl rfl
  | false =>
    refine Or.inr ⟨rfl, fun x => ?_⟩
    have := (applyOps_wake inf.semvmx (σ.sema c.idx).base hvmx c.sops σ.sem false x hw).2
    simp only [(setPids_frame _ _ _ _ _).1]
    exact this

theorem Watch.semget (h : Watch σ) (key nsems : Int) (creat excl : Bool) :
    Watch (semget inf σ key nsems creat excl).1 := by
  have hlayout : Layout (Sem.semget inf σ key nsems creat excl).1 :=
    h.layout.semget key nsems creat excl
  have hsame : ∀ i, (σ.sema i).alloc = true →
      SameSet σ (Sem.semget inf σ key nsems creat excl).1 i :=
    fun i hi => h.layout.sameSet_semget inf key nsems creat excl hi
  have hsl : (Sem.semget inf σ key nsems creat excl).1.sleepers = σ.sleepers := by
    rcases semget_cases inf σ key nsems creat excl with heq | ⟨i, n, -, -, heq⟩ <;> rw [heq]
  refine ⟨hlayout, ?_, ?_, ?_⟩
  · intro t ht
    rw [hsl] at ht
    have hs := h.stuck t ht
    have hall := ((semvalid_iff _ _ _).mp hs.valid)
    have hsm := hsame _ hall.1
    rcases hs.blocked with ⟨pre, post, hsplit, hnet, hblocks⟩
    refine ⟨(semvalid_iff _ _ _).mpr ⟨hsm.alloc.trans hall.1, hsm.seq.trans hall.2⟩,
      by rw [hsm.nsems]; exact hs.nums, hs.clean, pre, post, hsplit, hnet, ?_⟩
    rw [hsm.sem hall.1 _ (hs.nums _ hs.mem)]
    exact hblocks
  · intro i hi n hn zero
    rw [hsl]
    by_cases hold : (σ.sema i).alloc = true
    · have hsm := hsame i hold
      rw [hsm.nsems] at hn
      rw [hsm.sem hold n hn]
      exact h.counted i hold n hn zero
    -- Nobody sleeps at a set that was not there.
    have hnone : σ.sleepers.countP (waits i n zero) = 0 := by
      rw [List.countP_eq_zero]
      intro t ht hw
      rw [waits_iff] at hw
      have := ((semvalid_iff _ _ _).mp (h.stuck t ht).valid).1
      rw [hw.1] at this
      exact hold this
    rcases semget_cases inf σ key nsems creat excl with heq | ⟨j, m, -, -, heq⟩
    · rw [heq] at hi
      exact absurd hi hold
    rw [heq] at hi hn ⊢
    rw [hnone]
    by_cases hij : i = j
    · subst hij
      simp only [update_self] at hn ⊢
      rw [if_pos (by omega)]
      cases zero <;> rfl
    · simp only [update_of_ne hij] at hi
      exact absurd hi hold
  intro i
  unfold asleepAt
  rw [hsl]
  exact h.few i

/-- The steps of a run on sets that are not removed: the vectors are clean, and a set has no
    more sleepers than can be counted. -/
def Watched (σ : State) : Op → Prop
  | .semop c => ZeroClean c.sops ∧ asleepAt σ c.idx + 1 < 65536
  | .rmid _ _ => False
  | _ => True

instance (σ : State) (op : Op) : Decidable (Watched σ op) :=
  match op with
  | .semop c => inferInstanceAs (Decidable (ZeroClean c.sops ∧ asleepAt σ c.idx + 1 < 65536))
  | .rmid .. => isFalse id
  | .semget .. => isTrue trivial
  | .resume .. => isTrue trivial
  | .setval .. => isTrue trivial
  | .setall .. => isTrue trivial
  | .exitBegin .. => isTrue trivial
  | .exitStep .. => isTrue trivial

theorem Watch.resume {i : Nat} {intr : Bool} {out : Outcome} (h : Watch σ)
    (hres : resume inf σ i intr = some (σ', out)) : Watch σ' := by
  rcases resume_cases hres with ⟨t, ht, ⟨hgone, -⟩ | ⟨-, -, rfl⟩ | ⟨hvalid, hatt⟩⟩
  · have hmem := List.mem_of_getElem? ht
    rw [(h.stuck t hmem).valid] at hgone
    exact absurd hgone (by decide)
  · exact h.leave ht
  have hmem := List.mem_of_getElem? ht
  have hs := h.stuck t hmem
  refine (h.leave ht).attempt hvalid hs.nums hs.clean ?_ hatt
  -- The sleeper that woke leaves room for itself.
  rcases List.getElem?_eq_some_iff.mp ht with ⟨hi, hget⟩
  have hperm := List.getElem_cons_eraseIdx_perm hi
  rw [hget] at hperm
  have hfew := h.few t.call.idx
  unfold asleepAt at hfew ⊢
  rw [← hperm.countP_eq, List.countP_cons] at hfew
  simpa using hfew

theorem Watch.setVal (h : Watch σ) {idx num : Nat} (v : Int) (u : Undos) (ex : List (Nat × Nat))
    (hall : (σ.sema idx).alloc = true) (hnum : num < (σ.sema idx).nsems) : Watch { σ with
      sem := setVal σ.sem ((σ.sema idx).base + num) v
      undos := u
      sleepers := wakeup σ.sleepers idx
      exiting := ex } := by
  refine h.change idx hall rfl rfl ?_ ?_ (Or.inl rfl)
  · intro x zero
    unfold Semaphore.cnt
    simp only [(setVal_other _ _ _ _).2.1, (setVal_other _ _ _ _).2.2]
  intro x hx
  simp only
  rw [setVal_of_ne _ _ _ _ (by omega)]

theorem Watch.step {op : Op} (h : Watch σ) (hop : Watched σ op) (hstep : step inf σ op = some σ') :
    Watch σ' := by
  unfold Sem.step at hstep
  rw [Option.map_eq_some_iff] at hstep
  rcases hstep with ⟨⟨τ, out⟩, hexec, rfl⟩
  simp only
  cases op with
  | semget key nsems creat excl =>
    simp only [exec, Option.some.injEq] at hexec
    have hget : Watch (Sem.semget inf σ key nsems creat excl).1 := h.semget key nsems creat excl
    rwa [hexec] at hget
  | semop c =>
    rcases semop_cases hexec with ⟨rfl, -⟩ | ⟨hvalid, hnums, hatt⟩
    · exact h
    · exact h.attempt hvalid hnums hop.1 hop.2 hatt
  | resume i intr => exact h.resume hexec
  | setval idx seq num val =>
    simp only [exec, Option.some.injEq] at hexec
    have hcases := setval_cases inf σ idx seq num val
    rw [hexec] at hcases
    rcases hcases with rfl | ⟨hall, hnum, -, -, rfl⟩
    · exact h
    · exact h.setVal val _ σ.exiting hall hnum
  | setall idx seq vals =>
    simp only [exec, Option.some.injEq] at hexec
    have hcases := setall_cases inf σ idx seq vals
    rw [hexec] at hcases
    rcases hcases with rfl | ⟨hall, rfl⟩
    · exact h
    have hframe := setallLoop_frame inf.semvmx (σ.sema idx).base vals (σ.sema idx).nsems 0 σ.sem
    refine h.change idx hall rfl rfl ?_ ?_ (Or.inl rfl)
    · intro x zero
      unfold Semaphore.cnt
      simp only [(hframe x).1, (hframe x).2.1]
    · intro x hx
      simp only [(hframe x).2.2 (by omega)]
  | rmid idx seq => exact absurd hop id
  | exitBegin p =>
    simp only [exec, Option.some.injEq] at hexec
    rcases exitBegin_cases σ p with ⟨u, ex, heq⟩
    rw [hexec] at heq
    subst heq
    exact h.congr u ex
  | exitStep k =>
    rcases exitStep_cases hexec with ⟨s, ix, -, ⟨e, -, ⟨-, rfl⟩ | ⟨hvalid, hnum, rfl⟩⟩ | ⟨-, rfl⟩⟩
    · exact h.congr σ.undos _
    · exact h.setVal _ σ.undos _ ((semvalid_iff _ _ _).mp hvalid).1 hnum
    · exact h.congr _ _

theorem Watch.init (inf : Seminfo) (mem : Nat → Semaphore) : Watch (init inf mem) := by
  refine ⟨Layout.init inf mem, ?_, ?_, ?_⟩
  · intro t ht
    exact absurd ht List.not_mem_nil
  · intro i hi
    exact absurd hi (by simp [Sem.init])
  · intro i
    exact (by decide : 0 < 65536)

/-- What the wakeups should do: who sleeps and has not been woken could not get through
    its vector now either. It would sleep again, unless an increment in the vector
    has become too large. -/
def NoLostWakeup (inf : Seminfo) (σ : State) : Prop :=
  ∀ t ∈ σ.sleepers, t.woken = false →
    match (applyOps inf.semvmx (σ.sema t.call.idx).base t.call.sops σ.sem false).stop with
    | .done => False
    | .wait _ => True
    | .erange => ∃ b ∈ t.call.sops, 0 < b.op

theorem Watch.noLostWakeup (h : Watch σ) : NoLostWakeup inf σ := by
  intro t ht hwoken
  have hvmx := inf.semvmx_lt
  have hstop := applyOps_stop inf.semvmx (σ.sema t.call.idx).base hvmx t.call.sops σ.sem false
  cases hst : (applyOps inf.semvmx (σ.sema t.call.idx).base t.call.sops σ.sem false).stop with
  | done =>
    rcases (h.stuck t ht).blocked with ⟨pre, post, hsplit, -, hblocks⟩
    have := applyOps_done _ _ hvmx _ _ _ hst pre t.sop post hsplit
    rw [netAt_base] at this
    exact this (hblocks hwoken)
  | wait b => trivial
  | erange =>
    rw [hst] at hstop
    exact hstop

/-- In every run of such steps no wakeup is lost. -/
theorem no_lost_wakeup (inf : Seminfo) (mem : Nat → Semaphore) (ops : List Op) (t : State)
    (hwatched : EveryStep (step inf) Watched (init inf mem) ops)
    (hrun : runOps (step inf) (init inf mem) ops = some t) : NoLostWakeup inf t :=
  (runOps_invariant_of (step inf) Watched Watch (fun _ _ _ hP hC hstep => hP.step hC hstep) ops
    (init inf mem) t (Watch.init inf mem) hwatched hrun).noLostWakeup

/-- A process waits for an increment, and gets it. -/
def wakeOps : List Op :=
  [.semget 0 1 true false, .semop ⟨2, 0, 1, [⟨0, -1, false, false⟩]⟩,
    .semop ⟨1, 0, 1, [⟨0, 1, false, false⟩]⟩, .resume 0 false]

theorem no_lost_wakeup_resume :
    ∃ t, runOps (step defaults) (init defaults (fun _ => .zero)) wakeOps = some t ∧
      NoLostWakeup defaults t := by
  have hsome : (runOps (step defaults) (init defaults (fun _ => .zero)) wakeOps).isSome = true := by
    decide
  rcases Option.isSome_iff_exists.mp hsome with ⟨t, ht⟩
  exact ⟨t, ht, no_lost_wakeup defaults (fun _ => .zero) wakeOps t (by decide) ht⟩

/-- At a value of two, a process wants to take one and then waits for zero. Another
    process takes one, and wakes nobody. -/
def lostOps : List Op :=
  [.semget 0 1 true false, .semop ⟨1, 0, 1, [⟨0, 2, false, false⟩]⟩,
    .semop ⟨2, 0, 1, [⟨0, -1, false, false⟩, ⟨0, 0, false, false⟩]⟩,
    .semop ⟨1, 0, 1, [⟨0, -1, false, false⟩]⟩]

theorem wakeup_lost : ¬ ∀ (inf : Seminfo) (mem : Nat → Semaphore) (ops : List Op) (t : State),
    (∀ idx seq, .rmid idx seq ∉ ops) → runOps (step inf) (init inf mem) ops = some t →
    NoLostWakeup inf t := by
  intro h
  have hval : (runOps (step defaults) (init defaults (fun _ => .zero)) lostOps).map
      (fun t => (t.sleepers, (applyOps defaults.semvmx (t.sema 0).base
        [⟨0, -1, false, false⟩, ⟨0, 0, false, false⟩] t.sem false).stop)) =
      some ([⟨⟨2, 0, 1, [⟨0, -1, false, false⟩, ⟨0, 0, false, false⟩]⟩, ⟨0, 0, false, false⟩,
        false⟩], .done) := by
    decide
  rcases Option.map_eq_some_iff.mp hval with ⟨t, ht, heq⟩
  rw [Prod.mk.injEq] at heq
  have hlost := h defaults (fun _ => .zero) lostOps t (by simp [lostOps]) ht
  unfold NoLostWakeup at hlost
  rw [heq.1] at hlost
  have := hlost _ List.mem_cons_self rfl
  simp only [heq.2] at this

end FreeBSDKern.Sem
