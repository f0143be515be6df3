import FreeBSDKern.Sem.Adjust
import FreeBSDKern.Sem.Range

/-!
# Undo Bookkeeping

What a process is owed when it exits is what it has done with `SEM_UNDO`. A run keeps a log
of the calls that succeeded, and the entries of a process should add up to the negative
of what its calls did to a semaphore (`Bookkeeping`).

They do while no vector cancels the last entry of its process and goes on. When an entry
is cancelled and was the last one, the structure goes to the free list, but the loop over
the vector keeps its pointer, and what it adds then is in a structure that nobody
finds at exit. `lastKept` is the condition, on the entries before the call and the vector.

The rollback runs through the same entries backwards, so the condition covers it too.

## Main definitions

* `Traced`: A state with the log of the calls that succeeded.
* `lastKept`: A vector does not go on behind the last entry of its process.
* `Bookkeeping`: What the undo structures should hold.

## Theorems

* `undoLoop_spec`: The loop over the adjustments of a vector.
* `Booked.step`: One step.
* `undo_bookkeeping`: Every run of such steps.
* `undo_lost`: A run in which an adjustment is lost.
-/

namespace FreeBSDKern.Sem

open Lib Function

/-- What a vector does to a semaphore with `SEM_UNDO`. -/
def undoNet (idx : Nat) : List Sembuf → Nat → Nat → Int
  | [], _, _ => 0
  | b :: rest, i, n =>
    (if b.undo = true ∧ i = idx ∧ n = b.num then b.op else 0) + undoNet idx rest i n

variable {b : Sembuf} {u : Undos} {σ σ' : State} {id : Nat} {τ : Traced} {P : Nat → Prop}
  {ex : List Nat} {inf : Seminfo} {out : Outcome}

theorem undoNet_cons_of_undoes (h : b.undoes = true) (idx i n : Nat) (rest : List Sembuf) :
    undoNet idx (b :: rest) i n =
      (if i = idx ∧ n = b.num then b.op else 0) + undoNet idx rest i n := by
  unfold Sembuf.undoes at h
  rw [Bool.and_eq_true] at h
  rw [undoNet]
  simp only [h.1, true_and]

theorem undoNet_cons_of_not (h : ¬ b.undoes = true) (idx i n : Nat) (rest : List Sembuf) :
    undoNet idx (b :: rest) i n = undoNet idx rest i n := by
  unfold Sembuf.undoes at h
  rw [Bool.and_eq_true, decide_eq_true_iff, not_and_or, not_not] at h
  rw [undoNet]
  rcases h with h | h
  · rw [if_neg (fun hc => h hc.1), Int.zero_add]
  · rw [h, ite_self, Int.zero_add]

theorem undoNet_eq_zero (idx i n : Nat) (sops : List Sembuf) (h : sops.any Sembuf.undoes = false) :
    undoNet idx sops i n = 0 := by
  induction sops with
  | nil => rfl
  | cons b rest ih =>
    rw [List.any_cons, Bool.or_eq_false_iff] at h
    rw [undoNet_cons_of_not (by rw [h.1]; decide)]
    exact ih h.2

theorem Sembuf.op_ne (h : b.undoes = true) : b.op ≠ 0 := by
  unfold Sembuf.undoes at h
  rw [Bool.and_eq_true, decide_eq_true_iff] at h
  exact h.2

/-- A vector does not go on behind the last entry of its process: an adjustment that
    leaves no entry is the last of the vector. -/
def lastKept (inf : Seminfo) (c : Call) : List Undo → List Sembuf → Bool
  | _, [] => true
  | ents, b :: rest =>
    if b.undoes then
      match adjustEnts inf ents c.idx c.seq b.num (-b.op) with
      | .error _ => true
      | .ok ents' =>
        (decide (ents' ≠ []) || !rest.any Sembuf.undoes) && lastKept inf c ents' rest
    else lastKept inf c ents rest

/-- Taking back does not go on behind the last entry either. -/
def BackSafe (idx : Nat) : (Nat → Nat → Int) → List Sembuf → Prop
  | _, [] => True
  | V, b :: done =>
    if b.undoes then
      ((∀ i n, V i n + (if i = idx ∧ n = b.num then b.op else 0) = 0) →
        done.any Sembuf.undoes = false) ∧
      BackSafe idx (fun i n => V i n + if i = idx ∧ n = b.num then b.op else 0) done
    else BackSafe idx V done

section Loops

variable {inf : Seminfo} {id : Nat} {P : Nat → Prop} {ex : List Nat} {c : Call}

/-- Taking adjustments back. -/
theorem undoBack_spec (hseq : c.idx = id → P c.seq) (done : List Sembuf) :
    ∀ (u u' : Undos) (suptr : Option Nat), Books id P u ex →
    (done.any Sembuf.undoes = false ∨ Found u c.proc suptr) →
    BackSafe c.idx (adjSum (entsOf u c.proc)) done → undoBack inf c done u suptr = some u' →
    Books id P u' ex ∧ (∀ q, q ≠ c.proc → entsOf u' q = entsOf u q) ∧
      ∀ i n, adjSum (entsOf u' c.proc) i n =
        adjSum (entsOf u c.proc) i n + undoNet c.idx done i n := by
  induction done with
  | nil =>
    intro u u' suptr hb _ _ h
    rw [undoBack, Option.some.injEq] at h
    subst h
    exact ⟨hb, fun _ _ => rfl, fun i n => by rw [undoNet, Int.add_zero]⟩
  | cons b done ih =>
    intro u u' suptr hb hfound hsafe h
    rw [undoBack] at h
    rw [BackSafe] at hsafe
    rw [List.any_cons, Bool.or_eq_false_iff] at hfound
    split at h
    case isFalse hundo =>
      rw [if_neg hundo] at hsafe
      rcases ih u u' suptr hb (hfound.imp_left And.right) hsafe h with ⟨hb', hq, hsum⟩
      refine ⟨hb', hq, fun i n => ?_⟩
      rw [hsum, undoNet_cons_of_not hundo]
    case isTrue hundo =>
    rw [if_pos hundo] at hsafe
    have hfound : Found u c.proc suptr :=
      hfound.resolve_left (fun hno => absurd (hno.1.symm.trans hundo) (by decide))
    have hadj : Adjusted inf id P u ex c.proc c.idx c.seq b.num b.op
        (semundoAdjust inf u suptr c.proc c.idx c.seq b.num b.op) :=
      hb.semundoAdjust inf hfound (Sembuf.op_ne hundo) hseq
    rcases hr : semundoAdjust inf u suptr c.proc c.idx c.seq b.num b.op with ⟨u₁, sup₁, err⟩
    rw [hr] at hadj h
    cases err with
    | some e => cases h
    | none =>
      rcases hadj.result with ⟨e, he, -⟩ | ⟨ents, -, hents, hof, hfound₁⟩
      · cases he
      have hsums : ∀ i n, adjSum (entsOf u₁ c.proc) i n = adjSum (entsOf u c.proc) i n +
          if i = c.idx ∧ n = b.num then b.op else 0 := by
        intro i n
        rw [hof]
        exact adjustEnts_sum (Sembuf.op_ne hundo) hents i n
      have hnext : done.any Sembuf.undoes = false ∨ Found u₁ c.proc sup₁ := by
        by_cases hnil : ents = []
        · left
          refine hsafe.1 (fun i n => ?_)
          rw [← hsums, hof, hnil]
          rfl
        · exact Or.inr (hfound₁ hnil)
      have hV : adjSum (entsOf u₁ c.proc) = fun i n => adjSum (entsOf u c.proc) i n +
          if i = c.idx ∧ n = b.num then b.op else 0 := by
        funext i n
        exact hsums i n
      rcases ih u₁ u' sup₁ hadj.books hnext (by rw [hV]; exact hsafe.2) h with
        ⟨hb', hq, hsum⟩
      refine ⟨hb', fun q hne => (hq q hne).trans (hadj.others q hne), fun i n => ?_⟩
      rw [hsum, hsums, undoNet_cons_of_undoes hundo, Int.add_assoc]

/-- The loop over the adjustments of a vector: it makes them all, or takes back
    what it has made. -/
theorem undoLoop_spec (hseq : c.idx = id → P c.seq) (rest : List Sembuf) :
    ∀ (done : List Sembuf) (u u' : Undos) (suptr : Option Nat) (err : Option Errno),
    Books id P u ex → (rest.any Sembuf.undoes = false ∨ (Found u c.proc suptr ∧
      (entsOf u c.proc = [] → done.any Sembuf.undoes = false))) →
    BackSafe c.idx (adjSum (entsOf u c.proc)) done → lastKept inf c (entsOf u c.proc) rest = true →
    undoLoop inf c rest done u suptr = some (u', err) →
    Books id P u' ex ∧ (∀ q, q ≠ c.proc → entsOf u' q = entsOf u q) ∧
      ∀ i n, adjSum (entsOf u' c.proc) i n = adjSum (entsOf u c.proc) i n +
        if err = none then -undoNet c.idx rest i n else undoNet c.idx done i n := by
  induction rest with
  | nil =>
    intro done u u' suptr err hb _ _ _ h
    rw [undoLoop, Option.some.injEq, Prod.mk.injEq] at h
    rcases h with ⟨rfl, rfl⟩
    refine ⟨hb, fun _ _ => rfl, fun i n => ?_⟩
    simp [undoNet]
  | cons b rest ih =>
    intro done u u' suptr err hb hfound hback hlast h
    rw [undoLoop] at h
    rw [lastKept] at hlast
    rw [List.any_cons, Bool.or_eq_false_iff] at hfound
    split at h
    case isFalse hundo =>
      rw [if_neg hundo] at hlast
      have hfound' : rest.any Sembuf.undoes = false ∨ (Found u c.proc suptr ∧
          (entsOf u c.proc = [] → (b :: done).any Sembuf.undoes = false)) := by
        refine hfound.imp And.right (fun hf => ⟨hf.1, fun hnil => ?_⟩)
        rw [List.any_cons, hf.2 hnil, Bool.or_false]
        exact Bool.eq_false_iff.mpr hundo
      have hback' : BackSafe c.idx (adjSum (entsOf u c.proc)) (b :: done) := by
        rw [BackSafe, if_neg hundo]
        exact hback
      rcases ih (b :: done) u u' suptr err hb hfound' hback' hlast h with ⟨hb', hq, hsum⟩
      refine ⟨hb', hq, fun i n => ?_⟩
      rw [hsum, undoNet_cons_of_not hundo, undoNet_cons_of_not hundo]
    case isTrue hundo =>
    rw [if_pos hundo] at hlast
    have hfound : Found u c.proc suptr ∧ (entsOf u c.proc = [] → done.any Sembuf.undoes = false) :=
      hfound.resolve_left (fun hno => absurd (hno.1.symm.trans hundo) (by decide))
    have hne : -b.op ≠ 0 := by
      have := Sembuf.op_ne hundo
      omega
    have hadj : Adjusted inf id P u ex c.proc c.idx c.seq b.num (-b.op)
        (semundoAdjust inf u suptr c.proc c.idx c.seq b.num (-b.op)) :=
      hb.semundoAdjust inf hfound.1 hne hseq
    rcases hr : semundoAdjust inf u suptr c.proc c.idx c.seq b.num (-b.op) with
      ⟨u₁, sup₁, err₁⟩
    rw [hr] at hadj h
    cases err₁ with
    | some e =>
      rcases hadj.result with ⟨e', -, hof, hfound₁⟩ | ⟨ents, hno, -⟩
      · simp only [Option.map_eq_some_iff, Prod.mk.injEq] at h
        rcases h with ⟨u₂, hundone, rfl, rfl⟩
        simp only at hof
        rcases undoBack_spec hseq done u₁ u₂ sup₁ hadj.books (Or.inr hfound₁)
          (by rw [hof]; exact hback) hundone with ⟨hb', hq, hsum⟩
        refine ⟨hb', fun q hne => (hq q hne).trans (hadj.others q hne), fun i n => ?_⟩
        rw [hsum, hof, if_neg (by simp)]
      · cases hno
    | none =>
      rcases hadj.result with ⟨e, he, -⟩ | ⟨ents, -, hents, hof, hfound₁⟩
      · cases he
      rw [hents] at hlast
      simp only [Bool.and_eq_true, Bool.or_eq_true, decide_eq_true_iff, Bool.not_eq_true'] at hlast
      simp only at hof h
      have hsums : ∀ i n, adjSum (entsOf u₁ c.proc) i n = adjSum (entsOf u c.proc) i n +
          if i = c.idx ∧ n = b.num then -b.op else 0 := by
        intro i n
        rw [hof]
        exact adjustEnts_sum hne hents i n
      -- Taking this adjustment back leads to the entries before it.
      have hV : (fun i n => adjSum (entsOf u₁ c.proc) i n +
          if i = c.idx ∧ n = b.num then b.op else 0) = adjSum (entsOf u c.proc) := by
        funext i n
        rw [hsums]
        split <;> omega
      have hback' : BackSafe c.idx (adjSum (entsOf u₁ c.proc)) (b :: done) := by
        rw [BackSafe, if_pos hundo, hV]
        refine ⟨fun hzero => hfound.2 ?_, hback⟩
        rw [(hb.good_entsOf c.proc).eq_nil_iff]
        intro i n
        rw [← hV]
        exact hzero i n
      have hfound' : rest.any Sembuf.undoes = false ∨ (Found u₁ c.proc sup₁ ∧
          (entsOf u₁ c.proc = [] → (b :: done).any Sembuf.undoes = false)) := by
        by_cases hnil : ents = []
        · exact Or.inl (hlast.1.resolve_left (fun hc => hc hnil))
        · exact Or.inr ⟨hfound₁ hnil, fun hc => absurd (hof ▸ hc) hnil⟩
      rcases ih (b :: done) u₁ u' sup₁ err hadj.books hfound' hback'
        (by rw [hof]; exact hlast.2) h with ⟨hb', hq, hsum⟩
      refine ⟨hb', fun q hne => (hq q hne).trans (hadj.others q hne), fun i n => ?_⟩
      rw [hsum, hsums, undoNet_cons_of_undoes hundo, undoNet_cons_of_undoes hundo]
      split <;> split <;> omega

/-- The undo part of a round. -/
theorem undoPart_spec (hseq : c.idx = id → P c.seq) {u' : Undos} {err : Option Errno}
    (hb : Books id P u ex) (hlast : lastKept inf c (entsOf u c.proc) c.sops = true)
    (h : undoPart inf c u = some (u', err)) :
    Books id P u' ex ∧ (∀ q, q ≠ c.proc → entsOf u' q = entsOf u q) ∧
      ∀ i n, adjSum (entsOf u' c.proc) i n = adjSum (entsOf u c.proc) i n +
        if err = none then -undoNet c.idx c.sops i n else 0 := by
  unfold undoPart at h
  split at h
  case isTrue =>
    exact undoLoop_spec hseq c.sops [] u u' none err hb
      (Or.inr ⟨fun s hs => (nomatch hs), fun _ => rfl⟩) trivial hlast h
  case isFalse hno =>
  rw [Option.some.injEq, Prod.mk.injEq] at h
  rcases h with ⟨rfl, rfl⟩
  refine ⟨hb, fun _ _ => rfl, fun i n => ?_⟩
  rw [undoNet_eq_zero _ _ _ _ (Bool.eq_false_iff.mpr hno), Int.neg_zero, ite_self, Int.add_zero]

end Loops

/-- A state with the calls of `sys_semop` that succeeded, less those of processes that have
    exited since. -/
structure Traced where
  st : State
  log : List Call

/-- The log behind a step. -/
def logAfter (τ : Traced) : Op → Outcome → List Call
  | .semop c, .ok => c :: τ.log
  | .resume i _, .ok => match τ.st.sleepers[i]? with
    | none => τ.log
    | some t => t.call :: τ.log
  | .exitBegin p, _ => τ.log.filter (fun c => decide (c.proc ≠ p))
  | _, _ => τ.log

def tracedStep (inf : Seminfo) (τ : Traced) (op : Op) : Option Traced :=
  (exec inf τ.st op).map (fun r => ⟨r.1, logAfter τ op r.2⟩)

/-- What the calls of a process in the log did to a semaphore with `SEM_UNDO`. -/
def undone (log : List Call) (p id num : Nat) : Int :=
  (log.map (fun c => if c.proc = p then undoNet c.idx c.sops id num else 0)).sum

theorem undone_cons (c : Call) (log : List Call) (p id num : Nat) : undone (c :: log) p id num =
    (if c.proc = p then undoNet c.idx c.sops id num else 0) + undone log p id num := by
  unfold undone
  rw [List.map_cons, List.sum_cons]

theorem undone_filter (log : List Call) (p q id num : Nat) :
    undone (log.filter (fun c => decide (c.proc ≠ p))) q id num =
      if q = p then 0 else undone log q id num := by
  induction log with
  | nil => simp [undone]
  | cons c log ih =>
    rw [List.filter_cons]
    by_cases hc : c.proc = p
    · rw [if_neg (by simp [hc]), ih, undone_cons]
      by_cases hq : q = p
      · rw [if_pos hq, if_pos hq]
      · rw [if_neg hq, if_neg hq, if_neg (fun heq => hq (heq.symm.trans hc)), Int.zero_add]
    rw [if_pos (by simp [hc]), undone_cons, undone_cons, ih]
    by_cases hq : q = p
    · rw [if_pos hq, if_neg (fun heq => hc (heq.trans hq)), if_pos hq, Int.zero_add]
    · rw [if_neg hq, if_neg hq]

/-- What the exit hook would add to a semaphore when a process exits. -/
def exitAdj (σ : State) (p id num : Nat) : Int :=
  ((entsOf σ.undos p).map (fun e =>
    if e.id = id ∧ e.num = num ∧ semvalid σ e.id e.seq = true then e.adjval else 0)).sum

/-- What the undo structures should hold: each process is owed the negative of what it
    has done, it has at most one structure in use, and no free structure has entries. -/
structure Bookkeeping (id : Nat) (τ : Traced) : Prop where
  owed : ∀ p num, exitAdj τ.st p id num = -undone τ.log p id num
  once : ∀ p, (τ.st.undos.list.filter
    (fun s => decide ((τ.st.undos.pool s).proc = some p))).length ≤ 1
  free : ∀ s ∈ τ.st.undos.free, (τ.st.undos.pool s).ents = []

/-- The invariant for the semaphores of a set. -/
structure Booked (id : Nat) (τ : Traced) : Prop where
  books : Books id (fun seq => semvalid τ.st id seq = true) τ.st.undos (τ.st.exiting.map Prod.fst)
  sums : ∀ p num, adjSum (entsOf τ.st.undos p) id num = -undone τ.log p id num

theorem exitAdj_eq {p : Nat}
    (h : Tracked id (fun seq => semvalid σ id seq = true) (entsOf σ.undos p)) (num : Nat) :
    exitAdj σ p id num = adjSum (entsOf σ.undos p) id num := by
  unfold exitAdj adjSum
  congr 1
  refine List.map_congr_left (fun e he => ?_)
  by_cases hid : e.id = id
  · have := h e he hid
    rw [← hid] at this ⊢
    simp only [this, and_true]
  · rw [if_neg (fun hc => hid hc.1), if_neg (fun hc => hid hc.1)]

theorem Booked.bookkeeping (h : Booked id τ) : Bookkeeping id τ := by
  refine ⟨fun p num => ?_, fun p => ?_, h.books.free⟩
  · have htr : Tracked id (fun seq => semvalid τ.st id seq = true) (entsOf τ.st.undos p) := by
      unfold entsOf
      cases hfind : undoOf τ.st.undos p with
      | none => exact fun e he => absurd he List.not_mem_nil
      | some s => exact h.books.tracked s (undoOf_mem hfind).1
    rw [exitAdj_eq htr]
    exact h.sums p num
  -- Two structures of one process would have different owners.
  have hpw := h.books.procs.filter (fun s => decide ((τ.st.undos.pool s).proc = some p))
  cases hl : τ.st.undos.list.filter
      (fun s => decide ((τ.st.undos.pool s).proc = some p)) with
  | nil => exact zero_le
  | cons s rest =>
    cases rest with
    | nil => exact le_rfl
    | cons t rest =>
      rw [hl, List.pairwise_cons] at hpw
      have hmem : ∀ x ∈ s :: t :: rest, (τ.st.undos.pool x).proc = some p := by
        intro x hx
        rw [← hl, List.mem_filter] at hx
        exact of_decide_eq_true hx.2
      exact absurd ((hmem s List.mem_cons_self).trans
        (hmem t (List.mem_cons_of_mem _ List.mem_cons_self)).symm)
        (hpw.1 t List.mem_cons_self)

theorem Books.mono {Q : Nat → Prop} {ex' : List Nat} (h : Books id P u ex)
    (hPQ : ∀ seq, P seq → Q seq) (hex : ex.Perm ex') : Books id Q u ex' :=
  ⟨(hex.append_left _).nodup_iff.mp h.once, h.free, h.owned, h.procs, h.good,
    fun s hs e he hid => hPQ _ (h.tracked s hs e he hid)⟩

/-- The structure of a process that exits leaves the list. -/
theorem Books.unlink (h : Books id P u ex) {s p : Nat} (hfind : undoOf u p = some s) :
    Books id P { u with list := u.list.erase s } (s :: ex) ∧
      ∀ q, entsOf { u with list := u.list.erase s } q = if q = p then [] else entsOf u q := by
  rcases undoOf_mem hfind with ⟨hs, hp⟩
  have hperm : (u.list.erase s ++ u.free ++ s :: ex).Perm (u.list ++ u.free ++ ex) := by
    refine List.perm_middle.trans ?_
    rw [← List.cons_append, ← List.cons_append]
    exact ((List.perm_cons_erase hs).symm.append_right _).append_right _
  have hbooks : Books id P { u with list := u.list.erase s } (s :: ex) :=
    ⟨hperm.nodup_iff.mpr h.once, h.free, fun t ht => h.owned t (List.mem_of_mem_erase ht),
      h.procs.sublist List.erase_sublist, fun t ht => h.good t (List.mem_of_mem_erase ht),
      fun t ht => h.tracked t (List.mem_of_mem_erase ht)⟩
  exact ⟨hbooks, h.entsOf_erase hbooks hs hp rfl rfl⟩

/-- A structure that is on neither list goes to the free list. -/
theorem Books.dealloc {s : Nat} (h : Books id P u (s :: ex)) : Books id P (dealloc u s) ex ∧
      ∀ q, entsOf (dealloc u s) q = entsOf u q := by
  have hperm : (u.list ++ (s :: u.free) ++ ex).Perm (u.list ++ u.free ++ s :: ex) := by
    rw [List.append_assoc, List.append_assoc]
    exact List.Perm.append_left _ List.perm_middle.symm
  have hnd := (List.perm_middle.nodup_iff.mp h.once)
  rw [List.nodup_cons] at hnd
  have hother : ∀ t ∈ u.list ++ u.free, update u.pool s ⟨none, []⟩ t = u.pool t := by
    intro t ht
    refine update_of_ne (fun heq => hnd.1 ?_) _ _
    exact List.mem_append_left _ (heq ▸ ht)
  have hlist : ∀ t ∈ u.list, update u.pool s ⟨none, []⟩ t = u.pool t :=
    fun t ht => hother t (List.mem_append_left _ ht)
  have hbooks : Books id P (Sem.dealloc u s) ex := by
    unfold Sem.dealloc
    refine ⟨hperm.nodup_iff.mpr h.once, ?_, ?_, ?_, ?_, ?_⟩
    · intro t ht
      rcases List.mem_cons.mp ht with rfl | ht
      · simp only [update_self]
      · simp only [hother t (List.mem_append_right _ ht)]
        exact h.free t ht
    · intro t ht
      simp only [hlist t ht]
      exact h.owned t ht
    · refine h.procs.imp_of_mem (fun ht ht' htt => ?_)
      simp only [hlist _ ht, hlist _ ht']
      exact htt
    · intro t ht
      simp only [hlist t ht]
      exact h.good t ht
    intro t ht
    simp only [hlist t ht]
    exact h.tracked t ht
  refine ⟨hbooks, fun q => ?_⟩
  refine entsOf_congr (h.undoOf_congr hbooks (fun t => ?_)) (fun t ht => ?_)
  · refine and_congr_right (fun ht => ?_)
    unfold Sem.dealloc
    simp only [hlist t ht]
  · unfold Sem.dealloc
    simp only [hlist t (undoOf_mem ht).1]

/-- What a round does to the undo structures. -/
theorem attempt_books {c : Call}
    (hb : Books id (fun seq => semvalid σ id seq = true) σ.undos (σ.exiting.map Prod.fst))
    (hvalid : semvalid σ c.idx c.seq = true)
    (hlast : (applyOps inf.semvmx (σ.sema c.idx).base c.sops σ.sem false).stop = .done →
      lastKept inf c (entsOf σ.undos c.proc) c.sops = true) (h : attempt inf σ c = some (σ', out)) :
    σ'.sema = σ.sema ∧ σ'.exiting = σ.exiting ∧
      Books id (fun seq => semvalid σ id seq = true) σ'.undos (σ.exiting.map Prod.fst) ∧
      ∀ p n, adjSum (entsOf σ'.undos p) id n = adjSum (entsOf σ.undos p) id n -
        if out = .ok ∧ c.proc = p then undoNet c.idx c.sops id n else 0 := by
  have hseq : c.idx = id → semvalid σ id c.seq = true := by
    rintro rfl
    exact hvalid
  have hsame : ∀ o : Outcome, o ≠ .ok → ∀ p n, adjSum (entsOf σ.undos p) id n =
      adjSum (entsOf σ.undos p) id n -
        if o = .ok ∧ c.proc = p then undoNet c.idx c.sops id n else 0 := by
    intro o ho p n
    rw [if_neg (fun hc => ho hc.1), Int.sub_zero]
  rcases attempt_cases h with ⟨b, pre, post, rfl, -, -, -, rfl⟩ | ⟨e, u, rfl, rfl, hu⟩ |
    ⟨u, rfl, hdone, hu, rfl⟩
  · exact ⟨rfl, rfl, hb, hsame _ (by simp)⟩
  · rcases hu with rfl | ⟨hdone, hu⟩
    · exact ⟨rfl, rfl, hb, hsame _ (by simp)⟩
    rcases undoPart_spec hseq hb (hlast hdone) hu with ⟨hb', hq, hsum⟩
    refine ⟨rfl, rfl, hb', fun p n => ?_⟩
    rw [if_neg (fun hc => nomatch hc.1), Int.sub_zero]
    by_cases hp : p = c.proc
    · subst hp
      rw [hsum, if_neg (by simp), Int.add_zero]
    · simp only [hq p hp]
  rcases undoPart_spec hseq hb (hlast hdone) hu with ⟨hb', hq, hsum⟩
  refine ⟨rfl, rfl, hb', fun p n => ?_⟩
  dsimp only
  by_cases hp : c.proc = p
  · subst hp
    rw [hsum, if_pos rfl, if_pos ⟨rfl, rfl⟩]
    omega
  · rw [if_neg (fun hc => hp hc.2), Int.sub_zero, hq p (Ne.symm hp)]

/-- The steps of a run: no control operation on the set, and no vector that gets through
    goes on behind the last entry of its process. -/
def Kept (inf : Seminfo) (id : Nat) (τ : Traced) : Op → Prop
  | .semop c =>
    (applyOps inf.semvmx (τ.st.sema c.idx).base c.sops τ.st.sem false).stop = .done →
      lastKept inf c (entsOf τ.st.undos c.proc) c.sops = true
  | .resume i _ => ∀ t ∈ τ.st.sleepers[i]?,
      (applyOps inf.semvmx (τ.st.sema t.call.idx).base t.call.sops
        (bump τ.st.sem ((τ.st.sema t.call.idx).base + t.sop.num) t.sop (-1)) false).stop = .done →
        lastKept inf t.call (entsOf τ.st.undos t.call.proc) t.call.sops = true
  | .setval idx _ _ _ => idx ≠ id
  | .setall idx _ _ => idx ≠ id
  | .rmid idx _ => idx ≠ id
  | _ => True

instance (inf : Seminfo) (id : Nat) (τ : Traced) (op : Op) : Decidable (Kept inf id τ op) :=
  match op with
  | .semop _ => inferInstanceAs (Decidable (_ = _ → _ = _))
  | .resume i _ => inferInstanceAs (Decidable (∀ t ∈ τ.st.sleepers[i]?, _ = _ → _ = _))
  | .setval idx _ _ _ => inferInstanceAs (Decidable (idx ≠ id))
  | .setall idx _ _ => inferInstanceAs (Decidable (idx ≠ id))
  | .rmid idx _ => inferInstanceAs (Decidable (idx ≠ id))
  | .semget .. => isTrue trivial
  | .exitBegin .. => isTrue trivial
  | .exitStep .. => isTrue trivial

/-- The undo structures and the sets of a state decide whether it is booked. -/
theorem Booked.of_same (h : Booked id τ)
    (hvalid : ∀ seq, semvalid τ.st id seq = true → semvalid σ' id seq = true)
    (hundos : σ'.undos = τ.st.undos) (hex : σ'.exiting.map Prod.fst = τ.st.exiting.map Prod.fst) :
    Booked id ⟨σ', τ.log⟩ := by
  refine ⟨?_, ?_⟩
  · simp only [hundos, hex]
    exact h.books.mono hvalid (List.Perm.refl _)
  · simp only [hundos]
    exact h.sums

/-- A round that has ended, with or without success. -/
theorem Booked.attempt {c : Call} (h : Booked id τ) (hsema : σ.sema = τ.st.sema)
    (hundos : σ.undos = τ.st.undos) (hex : σ.exiting = τ.st.exiting)
    (hvalid : semvalid σ c.idx c.seq = true)
    (hlast : (applyOps inf.semvmx (σ.sema c.idx).base c.sops σ.sem false).stop = .done →
      lastKept inf c (entsOf σ.undos c.proc) c.sops = true)
    (hatt : attempt inf σ c = some (σ', out)) :
    Booked id ⟨σ', if out = .ok then c :: τ.log else τ.log⟩ := by
  have hv : ∀ seq, semvalid τ.st id seq = true → semvalid σ id seq = true := by
    intro seq hs
    unfold semvalid at hs ⊢
    rwa [hsema]
  have hb := h.books.mono hv (List.Perm.refl _)
  rw [← hundos, ← hex] at hb
  rcases attempt_books hb hvalid hlast hatt with ⟨hsema', hex', hb', hsum⟩
  refine ⟨?_, fun p n => ?_⟩
  · simp only [hex']
    refine hb'.mono (fun seq hs => ?_) (List.Perm.refl _)
    unfold semvalid at hs ⊢
    rwa [hsema']
  simp only [hsum, hundos, h.sums]
  by_cases hout : out = .ok
  · simp only [if_pos hout]
    rw [undone_cons]
    by_cases hp : c.proc = p
    · rw [if_pos ⟨hout, hp⟩, if_pos hp]
      omega
    · rw [if_neg (fun hc => hp hc.2), if_neg hp]
      omega
  · simp only [if_neg hout]
    rw [if_neg (fun hc => hout hc.1), Int.sub_zero]

/-- A control operation on another set. -/
theorem Booked.control {idx : Nat} (h : Booked id τ) (hne : id ≠ idx) (semnum : Option Nat)
    (hvalid : ∀ seq, semvalid τ.st id seq = true → semvalid σ' id seq = true)
    (hundos : σ'.undos = semundoClear τ.st.undos idx semnum) (hex : σ'.exiting = τ.st.exiting) :
    Booked id ⟨σ', τ.log⟩ := by
  rcases h.books.semundoClear semnum hne with ⟨hb, hsum⟩
  refine ⟨?_, fun p n => ?_⟩
  · simp only [hundos, hex]
    exact hb.mono hvalid (List.Perm.refl _)
  · simp only [hundos, hsum]
    exact h.sums p n

/-- A process begins to exit. -/
theorem Booked.exitBegin (h : Booked id τ) (p : Nat) :
    Booked id ⟨(exitBegin τ.st p).1, τ.log.filter (fun c => decide (c.proc ≠ p))⟩ := by
  unfold Sem.exitBegin
  cases hfind : undoOf τ.st.undos p with
  | none =>
    refine ⟨h.books, fun q n => ?_⟩
    rw [undone_filter]
    by_cases hq : q = p
    · rw [if_pos hq, hq]
      unfold entsOf
      rw [hfind]
      rfl
    · rw [if_neg hq]
      exact h.sums q n
  | some s =>
    rcases h.books.unlink hfind with ⟨hb, hents⟩
    have hsums : ∀ q n, adjSum (entsOf { τ.st.undos with
        list := τ.st.undos.list.erase s } q) id n =
        -undone (τ.log.filter (fun c => decide (c.proc ≠ p))) q id n := by
      intro q n
      rw [hents, undone_filter]
      by_cases hq : q = p
      · rw [if_pos hq, if_pos hq]
        rfl
      · rw [if_neg hq, if_neg hq]
        exact h.sums q n
    simp only
    split
    case isTrue =>
      refine ⟨hb.dealloc.1, fun q n => ?_⟩
      simp only [hb.dealloc.2]
      exact hsums q n
    case isFalse => exact ⟨hb, hsums⟩

theorem Booked.exitStep {k : Nat} (h : Booked id τ) (hexec : exitStep τ.st k = some (σ', out)) :
    Booked id ⟨σ', τ.log⟩ := by
  rcases exitStep_cases hexec with ⟨s, ix, hk, hcases⟩
  rcases List.getElem?_eq_some_iff.mp hk with ⟨hklen, hget⟩
  have hset : (τ.st.exiting.set k (s, ix + 1)).map Prod.fst = τ.st.exiting.map Prod.fst := by
    rw [List.map_set]
    refine List.ext_getElem? (fun j => ?_)
    rw [List.getElem?_set]
    split
    case isTrue hj =>
      subst hj
      rw [if_pos (by rwa [List.length_map]), List.getElem?_map, hk]
      rfl
    case isFalse => rfl
  rcases hcases with ⟨e, -, ⟨-, rfl⟩ | ⟨-, -, rfl⟩⟩ | ⟨-, rfl⟩
  · exact h.of_same (fun _ hs => hs) rfl hset
  · exact h.of_same (fun _ hs => hs) rfl hset
  have hperm : (τ.st.exiting.map Prod.fst).Perm (s :: (τ.st.exiting.eraseIdx k).map Prod.fst) := by
    have := (List.getElem_cons_eraseIdx_perm hklen).symm.map Prod.fst
    rwa [hget] at this
  have hb := (h.books.mono (fun _ hs => hs) hperm).dealloc
  refine ⟨hb.1, fun p n => ?_⟩
  simp only [hb.2]
  exact h.sums p n

/-- A new set: what was valid before still is. -/
theorem semvalid_semget (key nsems : Int) (creat excl : Bool) (seq : Nat)
    (h : semvalid σ id seq = true) :
    semvalid (semget inf σ key nsems creat excl).1 id seq = true := by
  rcases semget_cases inf σ key nsems creat excl with heq | ⟨i, n, hfree, -, heq⟩
  · rw [heq]
    exact h
  have hne : id ≠ i := by
    rintro rfl
    rw [semvalid_iff, hfree] at h
    exact absurd h.1 (by decide)
  rw [heq]
  unfold semvalid
  simp only [update_of_ne hne]
  exact h

theorem semvalid_rmid {idx : Nat} (seq' : Nat) (hne : id ≠ idx) (seq : Nat)
    (h : semvalid σ id seq = true) : semvalid (rmid inf σ idx seq').1 id seq = true := by
  rcases rmid_cases inf σ idx seq' with heq | ⟨-, heq⟩
  · rw [heq]
    exact h
  rw [heq]
  rw [semvalid_iff] at h ⊢
  simp only [if_neg hne]
  split <;> exact h

theorem Booked.step {τ' : Traced} {op : Op} (h : Booked id τ) (hop : Kept inf id τ op)
    (hstep : tracedStep inf τ op = some τ') : Booked id τ' := by
  unfold tracedStep at hstep
  rw [Option.map_eq_some_iff] at hstep
  rcases hstep with ⟨⟨σ', out⟩, hexec, rfl⟩
  cases op with
  | semget key nsems creat excl =>
    simp only [exec, Option.some.injEq] at hexec
    have hσ : (semget inf τ.st key nsems creat excl).1 = σ' := by rw [hexec]
    subst hσ
    refine h.of_same (fun seq hs => semvalid_semget key nsems creat excl seq hs) ?_ ?_
    · rcases semget_cases inf τ.st key nsems creat excl with heq | ⟨i, n, -, -, heq⟩ <;> rw [heq]
    · rcases semget_cases inf τ.st key nsems creat excl with heq | ⟨i, n, -, -, heq⟩ <;> rw [heq]
  | semop c =>
    rcases semop_cases hexec with ⟨rfl, e, rfl⟩ | ⟨hvalid, -, hatt⟩
    · exact h
    have hbooked := h.attempt rfl rfl rfl hvalid hop hatt
    cases out with
    | ok | error e | asleep => exact hbooked
  | resume i intr =>
    rcases resume_cases hexec with ⟨t, ht, ⟨-, rfl, rfl⟩ | ⟨-, rfl, rfl⟩ | ⟨hvalid, hatt⟩⟩
    · exact h.of_same (fun _ hs => hs) rfl rfl
    · exact h.of_same (fun _ hs => hs) rfl rfl
    have hbooked := h.attempt (σ := { τ.st with
        sem := bump τ.st.sem ((τ.st.sema t.call.idx).base + t.sop.num) t.sop (-1)
        sleepers := τ.st.sleepers.eraseIdx i }) rfl rfl rfl hvalid (hop t ht) hatt
    cases out with
    | ok =>
      unfold logAfter
      simp only [ht]
      exact hbooked
    | error e | asleep => exact hbooked
  | setval idx seq num val =>
    simp only [exec, Option.some.injEq] at hexec
    have hcases := setval_cases inf τ.st idx seq num val
    rw [hexec] at hcases
    rcases hcases with rfl | ⟨-, -, -, -, rfl⟩
    · exact h
    · exact h.control (Ne.symm hop) (some num) (fun _ hs => hs) rfl rfl
  | setall idx seq vals =>
    simp only [exec, Option.some.injEq] at hexec
    have hcases := setall_cases inf τ.st idx seq vals
    rw [hexec] at hcases
    rcases hcases with rfl | ⟨-, rfl⟩
    · exact h
    · exact h.control (Ne.symm hop) none (fun _ hs => hs) rfl rfl
  | rmid idx seq =>
    simp only [exec, Option.some.injEq] at hexec
    have hσ : (rmid inf τ.st idx seq).1 = σ' := by rw [hexec]
    subst hσ
    rcases rmid_cases inf τ.st idx seq with heq | ⟨-, heq⟩
    · rw [heq]
      exact h
    refine h.control (Ne.symm hop) none
      (fun s hs => semvalid_rmid seq (Ne.symm hop) s hs) ?_ ?_
    · rw [heq]
    · rw [heq]
  | exitBegin p =>
    simp only [exec, Option.some.injEq] at hexec
    have hσ : (Sem.exitBegin τ.st p).1 = σ' := by rw [hexec]
    subst hσ
    exact h.exitBegin p
  | exitStep k => exact h.exitStep hexec

theorem Booked.init (inf : Seminfo) (mem : Nat → Semaphore) (id : Nat) :
    Booked id ⟨init inf mem, []⟩ := by
  refine ⟨⟨?_, ?_, ?_, ?_, ?_, ?_⟩, fun p n => rfl⟩
  · simp only [Sem.init, initUndos, List.nil_append, List.map_nil, List.append_nil]
    exact (List.reverse_perm _).nodup_iff.mpr List.nodup_range
  · intro s _
    rfl
  · intro s hs
    exact absurd hs List.not_mem_nil
  · exact List.Pairwise.nil
  · intro s hs
    exact absurd hs List.not_mem_nil
  · intro s hs
    exact absurd hs List.not_mem_nil

/-- In every run of such steps the undo structures hold what they should. -/
theorem undo_bookkeeping (inf : Seminfo) (mem : Nat → Semaphore) (id : Nat) (ops : List Op)
    (t : Traced) (hkept : EveryStep (tracedStep inf) (Kept inf id) ⟨init inf mem, []⟩ ops)
    (hrun : runOps (tracedStep inf) ⟨init inf mem, []⟩ ops = some t) : Bookkeeping id t :=
  (runOps_invariant_of (tracedStep inf) (Kept inf id) (Booked id)
    (fun _ _ _ hP hC hstep => hP.step hC hstep) ops ⟨init inf mem, []⟩ t (Booked.init inf mem id)
    hkept hrun).bookkeeping

/-- A process takes one off two semaphores and gives both back in one vector. -/
def ledgerOps : List Op :=
  [.semget 0 2 true false, .semop ⟨1, 0, 1, [⟨0, 3, false, false⟩, ⟨1, 3, false, false⟩]⟩,
    .semop ⟨1, 0, 1, [⟨0, -1, true, false⟩, ⟨1, -1, true, false⟩]⟩,
    .semop ⟨1, 0, 1, [⟨0, 1, true, false⟩, ⟨1, 1, true, false⟩]⟩, .exitBegin 1]

theorem undo_bookkeeping_pair :
    ∃ t, runOps (tracedStep defaults) ⟨init defaults (fun _ => .zero), []⟩ ledgerOps = some t ∧
      Bookkeeping 0 t := by
  have hsome : (runOps (tracedStep defaults) ⟨init defaults (fun _ => .zero), []⟩
      ledgerOps).isSome = true := by
    decide
  rcases Option.isSome_iff_exists.mp hsome with ⟨t, ht⟩
  exact ⟨t, ht, undo_bookkeeping defaults (fun _ => .zero) 0 ledgerOps t (by decide) ht⟩

/-- A process has taken one off a semaphore. It gives it back and takes one off another
    in one vector. -/
def lostUndoOps : List Op :=
  [.semget 0 2 true false, .semop ⟨1, 0, 1, [⟨0, 3, false, false⟩, ⟨1, 3, false, false⟩]⟩,
    .semop ⟨1, 0, 1, [⟨0, -1, true, false⟩]⟩,
    .semop ⟨1, 0, 1, [⟨0, 1, true, false⟩, ⟨1, -1, true, false⟩]⟩]

theorem undo_lost : ¬ ∀ (inf : Seminfo) (mem : Nat → Semaphore) (id : Nat) (ops : List Op)
    (t : Traced), (∀ op ∈ ops, ∀ seq num val vals, op ≠ .setval id seq num val ∧
      op ≠ .setall id seq vals ∧ op ≠ .rmid id seq) →
    runOps (tracedStep inf) ⟨init inf mem, []⟩ ops = some t → Bookkeeping id t := by
  intro h
  have hval : (runOps (tracedStep defaults) ⟨init defaults (fun _ => .zero), []⟩ lostUndoOps).map
      (fun t => (exitAdj t.st 1 0 1, undone t.log 1 0 1)) = some (0, -1) := by
    decide
  rcases Option.map_eq_some_iff.mp hval with ⟨t, ht, heq⟩
  rw [Prod.mk.injEq] at heq
  have howed := (h defaults (fun _ => .zero) 0 lostUndoOps t (by simp [lostUndoOps]) ht).owed 1 1
  rw [heq.1, heq.2] at howed
  exact absurd howed (by decide)

end FreeBSDKern.Sem
