import Mathlib

/-!
# The Cylinder Overflow Search

`ffs_hashalloc` tries to allocate in one cylinder group after another: the
group asked for, then those at distances that double, then all others in a row.
The last round leaves out two groups, the one asked for and the next, which the
first two have tried already.

The allocator is a parameter, with a state of its own, and every call of it is
written down. The numbers are of type `u_int`. The distance doubles until it
reaches the number of groups, and beyond `2 ^ 31` groups it never does: it
becomes zero and stays so, and the second round goes on for ever. Up to there
the search is exhaustive.

## Main definitions

* `Probe`, `Search`: A call of the allocator, and a search so far.
* `rehash`, `sweep`: The second and the third round.
* `ffsHashalloc`: The search.
* `Exhaustive`: What the search is for.

## Theorems

* `tryGroup_going`: One more call.
* `rehash_spec`, `sweep_spec`: What a round leaves tried.
* `ffsHashalloc_last`: The state in the end, and the call the result is from.
* `hashalloc_exhaustive`: The search is exhaustive exactly for up to `2 ^ 31`
  groups.
-/

namespace FreeBSDKern.Ffs

/-- A call of the allocator and its result. -/
structure Probe where
  cg : Nat
  pref : Int
  result : Int

structure Search (σ : Type) where
  state : σ
  result : Int
  /-- The calls so far, the first one first. -/
  probes : List Probe

/-- `allocfcn_t`, with the state it works on: it gets a cylinder group, a
    preference and two sizes. -/
abbrev Allocfcn (σ : Type) := σ → Nat → Int → Int → Int → Int × σ

variable {σ : Type} (allocator : Allocfcn σ) (ncg : Nat) (size rsize : Int)

def tryGroup (r : Search σ) (cg : Nat) (pref : Int) : Search σ :=
  let (result, s) := allocator r.state cg pref size rsize
  { state := s, result := result, probes := r.probes ++ [⟨cg, pref, result⟩] }

/-- The quadratic rehash. It ends with a result or without one. -/
def rehash : Nat → Nat → Nat → Search σ → Option (Search σ)
  | 0, _, _, _ => none
  | fuel + 1, i, cg, r =>
    if i < ncg then
      let cg := (cg + i) % 2 ^ 32
      let cg := if cg ≥ ncg then cg - ncg else cg
      let r := tryGroup allocator size rsize r cg 0
      if r.result ≠ 0 then some r else rehash fuel (i * 2 % 2 ^ 32) cg r
    else some r

/-- The brute force search, over `n` groups. -/
def sweep : Nat → Nat → Search σ → Search σ
  | 0, _, r => r
  | n + 1, cg, r =>
    let r := tryGroup allocator size rsize r cg 0
    if r.result ≠ 0 then r else sweep n (if cg + 1 = ncg then 0 else cg + 1) r

/-- `ffs_hashalloc`, if its second round ends within `fuel` steps. -/
def ffsHashalloc (fuel icg : Nat) (pref : Int) (s : σ) : Option (Search σ) :=
  let r := tryGroup allocator size rsize { state := s, result := 0, probes := [] } icg pref
  if r.result ≠ 0 then some r
  else
    match rehash allocator ncg size rsize fuel 1 icg r with
    | none => none
    | some r =>
      if r.result ≠ 0 then some r
      else some (sweep allocator ncg size rsize (ncg - 2) ((icg + 2) % 2 ^ 32 % ncg) r)

/-- A group has been tried. -/
def Tried (r : Search σ) (g : Nat) : Prop := ∃ p ∈ r.probes, p.cg = g

/-- The group asked for has been tried first and with the preference, and only
    it, and nothing outside the file system has been tried. -/
structure Proper (icg : Nat) (pref : Int) (r : Search σ) : Prop where
  preferred : ∃ result rest, r.probes = ⟨icg, pref, result⟩ :: rest ∧ ∀ p ∈ rest, p.pref = 0
  inside : ∀ p ∈ r.probes, p.cg < ncg

/-- The search returns the first result there is. Where there is none it has
    tried every group. -/
structure Exhaustive (icg : Nat) (pref : Int) (r : Search σ) : Prop where
  proper : Proper ncg icg pref r
  first : r.result ≠ 0 → ∃ earlier cg pref, r.probes = earlier ++ [⟨cg, pref, r.result⟩] ∧
    ∀ p ∈ earlier, p.result = 0
  failed : r.result = 0 → (∀ p ∈ r.probes, p.result = 0) ∧ ∀ g < ncg, Tried r g

/-- The search so far: nothing has been found. -/
structure Going (icg : Nat) (pref : Int) (r : Search σ) : Prop where
  proper : Proper ncg icg pref r
  failed : ∀ p ∈ r.probes, p.result = 0
  result : r.result = 0

variable {ncg} {icg : Nat} {pref : Int} {r : Search σ}

-- One more group is tried. The search is over, or goes on with that group
-- tried.
theorem tryGroup_going (h : Going ncg icg pref r) (cg : Nat) (hcg : cg < ncg) :
    ((tryGroup allocator size rsize r cg 0).result ≠ 0 ∧
        Exhaustive ncg icg pref (tryGroup allocator size rsize r cg 0)) ∨
      (Going ncg icg pref (tryGroup allocator size rsize r cg 0) ∧
        ∀ g, Tried (tryGroup allocator size rsize r cg 0) g ↔ Tried r g ∨ g = cg) := by
  have hproper : Proper ncg icg pref (tryGroup allocator size rsize r cg 0) := by
    rcases h.proper.preferred with ⟨result, rest, heq, hrest⟩
    refine ⟨⟨result, rest ++ [⟨cg, 0, (tryGroup allocator size rsize r cg 0).result⟩], ?_, ?_⟩, ?_⟩
    · simp only [tryGroup, heq, List.cons_append]
    · intro p hp
      rcases List.mem_append.mp hp with hp | hp
      · exact hrest p hp
      · rw [List.mem_singleton.mp hp]
    intro p hp
    rcases List.mem_append.mp hp with hp | hp
    · exact h.proper.inside p hp
    · rw [List.mem_singleton.mp hp]
      exact hcg
  by_cases hfound : (tryGroup allocator size rsize r cg 0).result ≠ 0
  · exact Or.inl ⟨hfound, hproper, fun _ => ⟨r.probes, cg, 0, rfl, h.failed⟩,
      fun hzero => absurd hzero hfound⟩
  have hzero := not_not.mp hfound
  refine Or.inr ⟨⟨hproper, fun p hp => ?_, hzero⟩, fun g => ?_⟩
  · rcases List.mem_append.mp hp with hp | hp
    · exact h.failed p hp
    · rw [List.mem_singleton.mp hp]
      exact hzero
  constructor
  · rintro ⟨p, hp, rfl⟩
    rcases List.mem_append.mp hp with hp | hp
    · exact Or.inl ⟨p, hp, rfl⟩
    · rw [List.mem_singleton.mp hp]
      exact Or.inr rfl
  rintro (⟨p, hp, rfl⟩ | rfl)
  · exact ⟨p, List.mem_append_left _ hp, rfl⟩
  · exact ⟨_, List.mem_append_right _ (List.mem_singleton_self _), rfl⟩

/-- The second round, where the distance does not overflow. It tries at least
    the group at its first distance. -/
theorem rehash_spec (hncg : ncg ≤ 2 ^ 31) (fuel : Nat) : ∀ (i cg : Nat) (r : Search σ),
    0 < i → cg < ncg → ncg - i < fuel → Going ncg icg pref r →
    ∃ r', rehash allocator ncg size rsize fuel i cg r = some r' ∧
      ((r'.result ≠ 0 ∧ Exhaustive ncg icg pref r') ∨
        (Going ncg icg pref r' ∧ (∀ g, Tried r g → Tried r' g) ∧
          (i < ncg → Tried r' (if cg + i ≥ ncg then cg + i - ncg else cg + i)))) := by
  induction fuel with
  | zero => exact fun i cg r _ _ hfuel _ => absurd hfuel (Nat.not_lt_zero _)
  | succ fuel ih =>
    intro i cg r hi hcg hfuel h
    unfold rehash
    by_cases hlt : i < ncg
    · have hnowrap : (cg + i) % 2 ^ 32 = cg + i := Nat.mod_eq_of_lt (by omega)
      have hdouble : i * 2 % 2 ^ 32 = i * 2 := Nat.mod_eq_of_lt (by omega)
      rw [if_pos hlt]
      simp only [hnowrap, hdouble]
      generalize hnext : (if cg + i ≥ ncg then cg + i - ncg else cg + i) = next
      have hin : next < ncg := by
        rw [← hnext]
        split
        · omega
        · omega
      rcases tryGroup_going allocator size rsize h next hin with
        ⟨hfound, hex⟩ | ⟨hgoing, htried⟩
      · exact ⟨_, if_pos hfound, Or.inl ⟨hfound, hex⟩⟩
      rw [if_neg (not_not.mpr hgoing.result)]
      rcases ih (i * 2) next _ (by omega) hin (by omega) hgoing with
        ⟨r', hrun, hfound | ⟨hgoing', hmono, -⟩⟩
      · exact ⟨r', hrun, Or.inl hfound⟩
      · exact ⟨r', hrun, Or.inr ⟨hgoing', fun g hg => hmono g ((htried g).mpr (Or.inl hg)),
          fun _ => hmono next ((htried next).mpr (Or.inr rfl))⟩⟩
    · rw [if_neg hlt]
      exact ⟨r, rfl, Or.inr ⟨h, fun g hg => hg, fun hlt' => absurd hlt' hlt⟩⟩

/-- The third round tries `n` groups in a row. -/
theorem sweep_spec (n : Nat) : ∀ (cg : Nat) (r : Search σ), cg < ncg → Going ncg icg pref r →
    ((sweep allocator ncg size rsize n cg r).result ≠ 0 ∧
        Exhaustive ncg icg pref (sweep allocator ncg size rsize n cg r)) ∨
      (Going ncg icg pref (sweep allocator ncg size rsize n cg r) ∧
        (∀ g, Tried r g → Tried (sweep allocator ncg size rsize n cg r) g) ∧
        ∀ j < n, Tried (sweep allocator ncg size rsize n cg r) ((cg + j) % ncg)) := by
  induction n with
  | zero =>
    exact fun cg r _ h => Or.inr ⟨h, fun g hg => hg, fun j hj => absurd hj (Nat.not_lt_zero j)⟩
  | succ n ih =>
    intro cg r hcg h
    unfold sweep
    simp only
    rcases tryGroup_going allocator size rsize h cg hcg with
      ⟨hfound, hex⟩ | ⟨hgoing, htried⟩
    · rw [if_pos hfound]
      exact Or.inl ⟨hfound, hex⟩
    rw [if_neg (not_not.mpr hgoing.result)]
    generalize hnext : (if cg + 1 = ncg then 0 else cg + 1) = next
    have hin : next < ncg := by
      rw [← hnext]
      split
      · omega
      · omega
    have hmod : next = (cg + 1) % ncg := by
      rw [← hnext]
      split
      case isTrue heq => rw [heq, Nat.mod_self]
      case isFalse hne => rw [Nat.mod_eq_of_lt (by omega)]
    rcases ih next _ hin hgoing with hfound | ⟨hgoing', hmono, hrow⟩
    · exact Or.inl hfound
    refine Or.inr ⟨hgoing', fun g hg => hmono g ((htried g).mpr (Or.inl hg)), fun j hj => ?_⟩
    cases j with
    | zero =>
      rw [Nat.add_zero, Nat.mod_eq_of_lt hcg]
      exact hmono cg ((htried cg).mpr (Or.inr rfl))
    | succ j =>
      have hstep := hrow j (Nat.lt_of_succ_lt_succ hj)
      have hplace : (next + j) % ncg = (cg + (j + 1)) % ncg := by
        rw [hmod, Nat.mod_add_mod, Nat.add_assoc, Nat.add_comm 1 j]
      rwa [hplace] at hstep

variable (pref) in
-- The first round, of a search that has tried nothing.
theorem tryGroup_first (hicg : icg < ncg) (s : σ) :
    ((tryGroup allocator size rsize { state := s, result := 0, probes := [] } icg pref).result ≠ 0 ∧
        Exhaustive ncg icg pref
          (tryGroup allocator size rsize { state := s, result := 0, probes := [] } icg pref)) ∨
      (Going ncg icg pref
          (tryGroup allocator size rsize { state := s, result := 0, probes := [] } icg pref) ∧
        Tried (tryGroup allocator size rsize { state := s, result := 0, probes := [] } icg pref)
          icg) := by
  generalize hr :
    tryGroup allocator size rsize { state := s, result := 0, probes := [] } icg pref = r
  have hprobes : r.probes = [⟨icg, pref, r.result⟩] := by
    rw [← hr]
    rfl
  have hproper : Proper ncg icg pref r := by
    refine ⟨⟨r.result, [], hprobes, fun p hp => absurd hp List.not_mem_nil⟩, fun p hp => ?_⟩
    rw [hprobes, List.mem_singleton] at hp
    rw [hp]
    exact hicg
  by_cases hfound : r.result ≠ 0
  · exact Or.inl ⟨hfound, hproper, fun _ => ⟨[], icg, pref, hprobes, fun p hp =>
      absurd hp List.not_mem_nil⟩, fun hzero => absurd hzero hfound⟩
  refine Or.inr ⟨⟨hproper, fun p hp => ?_, not_not.mp hfound⟩, ⟨icg, pref, r.result⟩, ?_, rfl⟩
  · rw [hprobes, List.mem_singleton] at hp
    rw [hp]
    exact not_not.mp hfound
  · rw [hprobes]
    exact List.mem_singleton_self _

/-- Up to `2 ^ 31` groups. The groups left out by the third round are the ones
    at distance zero and one. -/
theorem hashalloc_returns (hpos : 0 < ncg) (hncg : ncg ≤ 2 ^ 31) (hicg : icg < ncg) (s : σ) :
    ∃ fuel r, ffsHashalloc allocator ncg size rsize fuel icg pref s = some r ∧
      Exhaustive ncg icg pref r := by
  unfold ffsHashalloc
  rcases tryGroup_first allocator size rsize pref hicg s with ⟨hfound, hex⟩ | ⟨hgoing, hself⟩
  · exact ⟨0, _, if_pos hfound, hex⟩
  simp only [if_neg (not_not.mpr hgoing.result)]
  rcases rehash_spec allocator size rsize hncg (ncg + 1) 1 icg _
    Nat.one_pos hicg (by omega) hgoing with ⟨r₁, hrun, ⟨hfound, hex⟩ | ⟨hgoing₁, hmono₁, hnext⟩⟩
  · refine ⟨ncg + 1, r₁, ?_, hex⟩
    rw [hrun]
    exact if_pos hfound
  have hstart : (icg + 2) % 2 ^ 32 = icg + 2 := Nat.mod_eq_of_lt (by omega)
  rcases sweep_spec allocator size rsize (ncg - 2)
    ((icg + 2) % ncg) r₁ (Nat.mod_lt _ hpos) hgoing₁ with ⟨-, hex⟩ | ⟨hgoing₂, hmono₂, hrow⟩
  · refine ⟨ncg + 1, sweep allocator ncg size rsize (ncg - 2) ((icg + 2) % ncg) r₁, ?_, hex⟩
    rw [hrun]
    simp only [if_neg (not_not.mpr hgoing₁.result), hstart]
  refine ⟨ncg + 1, sweep allocator ncg size rsize (ncg - 2) ((icg + 2) % ncg) r₁, ?_,
    hgoing₂.proper, fun hfound => absurd hgoing₂.result hfound,
    fun _ => ⟨hgoing₂.failed, fun g hg => ?_⟩⟩
  · rw [hrun]
    simp only [if_neg (not_not.mpr hgoing₁.result), hstart]
  -- By its distance from the group asked for.
  by_cases h0 : g = icg
  · rw [h0]
    exact hmono₂ icg (hmono₁ icg hself)
  by_cases h1 : g = (if icg + 1 ≥ ncg then icg + 1 - ncg else icg + 1)
  · rw [h1]
    exact hmono₂ _ (hnext (by omega))
  by_cases hup : icg < g
  · have hj := hrow (g - icg - 2) (by split at h1 <;> omega)
    have hplace : icg + 2 + (g - icg - 2) = g := by
      split at h1
      · omega
      · omega
    rwa [Nat.mod_add_mod, hplace, Nat.mod_eq_of_lt hg] at hj
  have hj := hrow (g + ncg - icg - 2) (by split at h1 <;> omega)
  have hplace : icg + 2 + (g + ncg - icg - 2) = g + ncg := by
    split at h1
    · omega
    · omega
  rwa [Nat.mod_add_mod, hplace, Nat.add_mod_right, Nat.mod_eq_of_lt hg] at hj

/-- An invariant of the allocator holds of its state, and a result is that of the
    last call. -/
def LastCall (ncg : Nat) (I : σ → Prop) (r : Search σ) : Prop :=
  I r.state ∧ (r.result ≠ 0 → ∃ s cg pref, cg < ncg ∧ I s ∧
    allocator s cg pref size rsize = (r.result, r.state))

theorem tryGroup_last {I : σ → Prop}
    (hstep : ∀ s cg pref, cg < ncg → I s → I (allocator s cg pref size rsize).2)
    {r : Search σ} (h : I r.state) {cg : Nat} (hcg : cg < ncg) (pref : Int) :
    LastCall allocator size rsize ncg I (tryGroup allocator size rsize r cg pref) :=
  ⟨hstep r.state cg pref hcg h, fun _ => ⟨r.state, cg, pref, hcg, h, rfl⟩⟩

theorem rehash_last {I : σ → Prop}
    (hstep : ∀ s cg pref, cg < ncg → I s → I (allocator s cg pref size rsize).2) (fuel : Nat) :
    ∀ (i cg : Nat) (r r' : Search σ), cg < ncg → LastCall allocator size rsize ncg I r →
      rehash allocator ncg size rsize fuel i cg r = some r' →
      LastCall allocator size rsize ncg I r' := by
  induction fuel with
  | zero =>
    intro i cg r r' _ _ hrun
    cases hrun
  | succ fuel ih =>
    intro i cg r r' hcg h hrun
    unfold rehash at hrun
    by_cases hlt : i < ncg
    · rw [if_pos hlt] at hrun
      simp only at hrun
      generalize hnext : (if (cg + i) % 2 ^ 32 ≥ ncg then (cg + i) % 2 ^ 32 - ncg
        else (cg + i) % 2 ^ 32) = next at hrun
      have hle := Nat.mod_le (cg + i) (2 ^ 32)
      have hin : next < ncg := by
        rw [← hnext]
        split
        · omega
        · omega
      have hlast := tryGroup_last allocator size rsize hstep h.1 hin 0
      by_cases hfound : (tryGroup allocator size rsize r next 0).result ≠ 0
      · rw [if_pos hfound, Option.some.injEq] at hrun
        rw [← hrun]
        exact hlast
      · rw [if_neg hfound] at hrun
        exact ih _ _ _ _ hin hlast hrun
    rw [if_neg hlt, Option.some.injEq] at hrun
    rw [← hrun]
    exact h

theorem sweep_last {I : σ → Prop}
    (hstep : ∀ s cg pref, cg < ncg → I s → I (allocator s cg pref size rsize).2) (n : Nat) :
    ∀ (cg : Nat) (r : Search σ), cg < ncg → LastCall allocator size rsize ncg I r →
      LastCall allocator size rsize ncg I (sweep allocator ncg size rsize n cg r) := by
  induction n with
  | zero => exact fun cg r _ h => h
  | succ n ih =>
    intro cg r hcg h
    have hlast := tryGroup_last allocator size rsize hstep h.1 hcg 0
    unfold sweep
    simp only
    by_cases hfound : (tryGroup allocator size rsize r cg 0).result ≠ 0
    · rw [if_pos hfound]
      exact hlast
    rw [if_neg hfound]
    refine ih _ _ ?_ hlast
    split
    · omega
    · omega

/-- What holds of the state of the allocator from call to call holds in the end,
    and a result is that of the last call. -/
theorem ffsHashalloc_last {I : σ → Prop}
    (hstep : ∀ s cg pref, cg < ncg → I s → I (allocator s cg pref size rsize).2)
    (hicg : icg < ncg) {s : σ} (h : I s) {fuel : Nat} {r : Search σ}
    (hrun : ffsHashalloc allocator ncg size rsize fuel icg pref s = some r) :
    LastCall allocator size rsize ncg I r := by
  have hfirst := tryGroup_last allocator size rsize hstep
    (r := { state := s, result := 0, probes := [] }) h hicg pref
  unfold ffsHashalloc at hrun
  simp only at hrun
  generalize tryGroup allocator size rsize { state := s, result := 0, probes := [] } icg pref = r₀
    at hrun hfirst
  by_cases hfound : r₀.result ≠ 0
  · rw [if_pos hfound, Option.some.injEq] at hrun
    rw [← hrun]
    exact hfirst
  rw [if_neg hfound] at hrun
  cases hrehash : rehash allocator ncg size rsize fuel 1 icg r₀ with
  | none =>
    rw [hrehash] at hrun
    cases hrun
  | some r₁ =>
    rw [hrehash] at hrun
    simp only at hrun
    have hsecond := rehash_last allocator size rsize hstep fuel 1 icg r₀ r₁ hicg hfirst hrehash
    by_cases hfound₁ : r₁.result ≠ 0
    · rw [if_pos hfound₁, Option.some.injEq] at hrun
      rw [← hrun]
      exact hsecond
    rw [if_neg hfound₁, Option.some.injEq] at hrun
    rw [← hrun]
    exact sweep_last allocator size rsize hstep _ _ _
      (Nat.mod_lt _ (Nat.zero_lt_of_lt hicg)) hsecond

-- Beyond `2 ^ 31` groups the distance never reaches the number of groups. It is
-- a power of two up to `2 ^ 31`, or it has become zero.
theorem distance_lt (hncg : 2 ^ 31 < ncg) (k : Nat) : 2 ^ k % 2 ^ 32 < ncg := by
  by_cases hk : k < 32
  · have hle : 2 ^ k ≤ 2 ^ 31 := Nat.pow_le_pow_right Nat.two_pos (by omega)
    exact lt_of_le_of_lt (le_trans (Nat.mod_le _ _) hle) hncg
  have hzero : 2 ^ k % 2 ^ 32 = 0 :=
    Nat.mod_eq_zero_of_dvd (pow_dvd_pow 2 (not_lt.mp hk))
  rw [hzero]
  exact lt_of_le_of_lt zero_le hncg

-- An allocator that finds nothing then keeps the second round going.
theorem rehash_endless (hncg : 2 ^ 31 < ncg) (fuel : Nat) : ∀ (k cg : Nat) (r : Search Unit),
    rehash (fun _ _ _ _ _ => (0, ())) ncg size rsize fuel (2 ^ k % 2 ^ 32) cg r = none := by
  induction fuel with
  | zero => exact fun k cg r => rfl
  | succ fuel ih =>
    intro k cg r
    have hdouble : 2 ^ k % 2 ^ 32 * 2 % 2 ^ 32 = 2 ^ (k + 1) % 2 ^ 32 := by
      rw [Nat.pow_succ 2 k, Nat.mod_mul_mod]
    unfold rehash
    rw [if_pos (distance_lt hncg k)]
    simp only [tryGroup, ne_eq, not_true_eq_false, if_false, hdouble]
    exact ih (k + 1) _ _

theorem hashalloc_endless (hncg : 2 ^ 31 < ncg) (fuel : Nat) :
    ffsHashalloc (fun _ _ _ _ _ => (0, ())) ncg size rsize fuel icg pref () = none := by
  have hloop := rehash_endless size rsize hncg fuel 0 icg
  have hone : 2 ^ 0 % 2 ^ 32 = 1 := rfl
  rw [hone] at hloop
  unfold ffsHashalloc
  simp only [tryGroup, ne_eq, not_true_eq_false, if_false]
  rw [hloop]

-- The search returns, and is exhaustive whatever the allocator does, exactly for
-- up to `2 ^ 31` groups.
theorem hashalloc_exhaustive (ncg icg : Nat) (hicg : icg < ncg) :
    (∀ (σ : Type) (allocator : Allocfcn σ) (size rsize pref : Int) (s : σ), ∃ fuel r,
      ffsHashalloc allocator ncg size rsize fuel icg pref s = some r ∧
        Exhaustive ncg icg pref r) ↔ ncg ≤ 2 ^ 31 := by
  constructor
  · intro h
    by_contra hmany
    rcases h Unit (fun _ _ _ _ _ => (0, ())) 0 0 0 () with ⟨fuel, r, hrun, -⟩
    rw [hashalloc_endless 0 0 (not_le.mp hmany) fuel] at hrun
    exact absurd hrun (Option.some_ne_none r).symm
  · intro hncg σ allocator size rsize pref s
    exact hashalloc_returns allocator size rsize (Nat.zero_lt_of_lt hicg) hncg hicg s

-- Three groups, of which the second is asked for.
theorem hashalloc_exhaustive_three : (∀ (σ : Type) (allocator : Allocfcn σ)
    (size rsize pref : Int) (s : σ), ∃ fuel r,
      ffsHashalloc allocator 3 size rsize fuel 1 pref s = some r ∧ Exhaustive 3 1 pref r) ↔
    3 ≤ 2 ^ 31 :=
  hashalloc_exhaustive 3 1 (by decide)

/-- An allocator that finds something in the third group only. -/
def thirdOnly : Allocfcn Unit := fun _ cg _ _ _ => (if cg = 2 then 1 else 0, ())

-- The groups tried are at the distances `2 ^ k - 1` from the first one, up to
-- the overflow, and one and the same group from then on.
theorem rehash_thirdOnly (fuel : Nat) : ∀ (i cg : Nat) (r : Search Unit),
    (∃ k < 31, i = 2 ^ k ∧ cg = 2 ^ k - 1) ∨ (i = 2 ^ 31 ∧ cg = 2 ^ 31 - 1) ∨
      (i = 0 ∧ cg = 2 ^ 31 - 2) →
    rehash thirdOnly (2 ^ 31 + 1) 0 0 fuel i cg r = none := by
  induction fuel with
  | zero => exact fun i cg r _ => rfl
  | succ fuel ih =>
    intro i cg r hplace
    have hlt : i < 2 ^ 31 + 1 := by
      rcases hplace with ⟨k, hk, rfl, -⟩ | ⟨rfl, -⟩ | ⟨rfl, -⟩
      · have hle : 2 ^ k ≤ 2 ^ 31 := Nat.pow_le_pow_right Nat.two_pos (by omega)
        omega
      · omega
      · omega
    unfold rehash
    rw [if_pos hlt]
    generalize hnext : (if (cg + i) % 2 ^ 32 ≥ 2 ^ 31 + 1 then (cg + i) % 2 ^ 32 - (2 ^ 31 + 1)
      else (cg + i) % 2 ^ 32) = next
    have hstep : next ≠ 2 ∧ ((∃ k < 31, i * 2 % 2 ^ 32 = 2 ^ k ∧ next = 2 ^ k - 1) ∨
        (i * 2 % 2 ^ 32 = 2 ^ 31 ∧ next = 2 ^ 31 - 1) ∨
        (i * 2 % 2 ^ 32 = 0 ∧ next = 2 ^ 31 - 2)) := by
      rcases hplace with ⟨k, hk, rfl, rfl⟩ | ⟨rfl, rfl⟩ | ⟨rfl, rfl⟩
      · have hle : 2 ^ k ≤ 2 ^ 30 := Nat.pow_le_pow_right Nat.two_pos (by omega)
        have hpos : 0 < 2 ^ k := Nat.two_pow_pos k
        have hsucc : 2 ^ (k + 1) = 2 ^ k * 2 := Nat.pow_succ 2 k
        rw [if_neg (by omega)] at hnext
        refine ⟨by omega, ?_⟩
        by_cases hlast : k = 30
        · subst hlast
          exact Or.inr (Or.inl ⟨by omega, by omega⟩)
        · exact Or.inl ⟨k + 1, by omega, by omega, by omega⟩
      · rw [if_pos (by omega)] at hnext
        exact ⟨by omega, Or.inr (Or.inr ⟨by omega, by omega⟩)⟩
      · rw [if_neg (by omega)] at hnext
        exact ⟨by omega, Or.inr (Or.inr ⟨by omega, by omega⟩)⟩
    have hmiss : (tryGroup thirdOnly 0 0 r next 0).result = 0 := if_neg hstep.1
    simp only [hnext]
    rw [if_neg (not_not.mpr hmiss)]
    exact ih _ _ _ hstep.2

-- With `2 ^ 31 + 1` groups the third one is never tried when the first one is
-- asked for, and the search does not end.
theorem hashalloc_overflow : (thirdOnly () 2 0 0 0).1 ≠ 0 ∧
    ∀ fuel, ffsHashalloc thirdOnly (2 ^ 31 + 1) 0 0 fuel 0 0 () = none := by
  refine ⟨by decide, fun fuel => ?_⟩
  have hloop := rehash_thirdOnly fuel 1 0
  have hfirst :
      (tryGroup thirdOnly 0 0 { state := (), result := 0, probes := [] } 0 0).result = 0 := rfl
  unfold ffsHashalloc
  simp only
  rw [if_neg (not_not.mpr hfirst), hloop _ (Or.inl ⟨0, by decide, rfl, rfl⟩)]

end FreeBSDKern.Ffs
