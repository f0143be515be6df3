import FreeBSDKern.Reserv.Steps
import FreeBSDKern.Lib.Run

/-!
# Runs of the Reservation System

Pages are handed out, given back and reactivated, objects are terminated and take
over each other's pages, and reservations are reclaimed, in any order. `World` has
the pages in use beside the state: a caller may only give back what is in use, and
may only reactivate what is not. The four records of the population agree after
every run that stays clear of two slips.

Dissolving a reservation leaves the page size index of its first page alone. The
reservations on the queue have an index of zero, but `vm_reserv_break_all` also
dissolves the fully populated ones, and their superpages keep an index of one
(`break_all_stale_psind`). And `vm_reserv_reactivate_page` populates the position
that the offset of the page within its object stands for, having checked that this
is in the reservation, but not that the page is the one at this position.

## Main definitions

* `Op`, `World`, `step`: The operations, and the pages in use along with the state.
* `Owed`: What the callers owe.
* `Avoids`: The step stays clear of both slips.

## Theorems

* `step_keeps`: One step.
* `reservations_agree`: The records agree after every such run.
* `break_all_stale_psind`: A run after which they do not.
-/

namespace FreeBSDKern.Reserv

open Lib

inductive Op where
  /-- Pages taken from the physical memory allocator directly. -/
  | physAlloc (m n : Nat)
  | allocPage (object : Object) (pindex : BitVec 64) (mpred msucc : Option Page)
      (phys : Request → Option Nat)
  | allocContig (object : Object) (pindex : BitVec 64) (req : Request)
      (mpred msucc : Option Page) (phys : Request → Option Nat)
  | freePage (m : Nat)
  | reactivatePage (m object : Nat) (color pindex : BitVec 64)
  | rename (m newObject oldObject : Nat) (offset : BitVec 64)
  | breakAll (object : Nat)
  | reclaimInactive
  | reclaimContig (req : Request)

/-- One operation: the run of pages it hands out, and the state after it. A page
    that no reservation takes back goes to the allocator. -/
def exec (s : State) : Op → Option (Option (Nat × Nat) × State)
  | .physAlloc m n => some (some (m, n), { s with free := physTake s.free m n })
  | .allocPage object pindex mpred msucc phys =>
    (allocPage s object pindex mpred msucc phys).map (fun a => (a.1.map (·, 1), a.2))
  | .allocContig object pindex req mpred msucc phys =>
    (allocContig s object pindex req mpred msucc phys).map (fun a => (a.1.map (·, req.npages), a.2))
  | .freePage m =>
    (freePage s m).map (fun a =>
      (none, if a.1 then a.2 else { a.2 with free := physFree a.2.free m 1 }))
  | .reactivatePage m object color pindex =>
    (reactivatePage s m object color pindex).map (fun a =>
      ((if a.1 then some m else none).map (·, 1), a.2))
  | .rename m newObject oldObject offset => some (none, rename s m newObject oldObject offset)
  | .breakAll object => (breakAll s object).map (fun s => (none, s))
  | .reclaimInactive => (reclaimInactive s).map (fun a => (none, a.2))
  | .reclaimContig req => (reclaimContig s req).map (fun a => (none, a.2))

structure World where
  state : State
  used : Nat → Bool

/-- The pages in use after an operation that handed out a run of pages. -/
def usedAfterwards (used : Nat → Bool) (op : Op) (run : Option (Nat × Nat)) : Nat → Bool :=
  match op, run with
  | .freePage m, _ => Function.update used m false
  | _, some (m, n) => useRun used m n
  | _, none => used

def step (w : World) (op : Op) : Option World :=
  (exec w.state op).map (fun a => ⟨a.2, usedAfterwards w.used op a.1⟩)

/-- The allocator gives free pages, aligned as they were asked for; callers give
    back what is in use, reactivate what is in nobody's hands, and ask for a number
    of pages whose bytes a machine word can count. -/
def Owed (w : World) : Op → Prop
  | .physAlloc m n => ∀ p, m ≤ p → p < m + n → w.state.free p = true
  | .allocPage _ _ _ _ phys => PhysOk w.state.free phys
  | .allocContig _ _ req _ _ phys =>
    PhysOk w.state.free phys ∧ 0 < req.npages ∧ req.npages < 2 ^ 52 ∧
      ∃ k, req.alignment.toNat = 2 ^ k
  | .freePage m => w.used m = true
  | .reactivatePage m _ _ _ => w.used m = false ∧ w.state.free m = false
  | .reclaimContig req => 0 < req.npages
  | .rename _ _ _ _ => True
  | .breakAll _ => True
  | .reclaimInactive => True

/-- No fully populated reservation is dissolved, and a cached page that is
    reactivated within a reservation is the one its offset stands for there. -/
def Avoids (w : World) : Op → Prop
  | .breakAll object =>
    ∀ r, (w.state.rv r).object = some object → (w.state.rv r).popcnt ≠ npages0
  | .reactivatePage m object color pindex =>
    (w.state.rv (m / npages0)).object = some object →
    (pindex - (w.state.rv (m / npages0)).pindex).toNat = vmReservIndex color pindex →
    m % npages0 = vmReservIndex color pindex
  | _ => True

def Allowed (w : World) (op : Op) : Prop := Owed w op ∧ Avoids w op

/-- The invariant of a run. -/
def Kept (w : World) : Prop := Ok w.state w.used ∧ Live w.state

/-- A run of pages handed out was not in use before. -/
def Fresh (w : World) (run : Option (Nat × Nat)) : Prop :=
  ∀ m n, run = some (m, n) → ∀ p, m ≤ p → p < m + n → w.used p = false

theorem vmReservInit_kept (free : Nat → Bool) : Kept ⟨vmReservInit free, fun _ => false⟩ := by
  refine ⟨⟨fun r => ?_, List.nodup_nil, fun o => List.nodup_nil, fun p _ => rfl⟩, fun r hr =>
    absurd rfl hr⟩
  refine ⟨rfl, ?_, ?_, ?_, ?_, fun _ => rfl, fun o => ?_, fun hobj => absurd rfl hobj⟩
  · have hzero : WordMap.population (List.replicate npopmap 0#64) 0 512 = 0 := by
      rw [WordMap.population_eq_zero]
      intro i _ hi
      have := WordMap.bit_append_zeros ([] : List (BitVec 64)) npopmap i
      rw [List.nil_append] at this
      rw [this]
      exact WordMap.bit_of_length_le _ _ zero_le
    rw [vmReservInit, hzero]
    rfl
  · simp [vmReservInit]
  · simp [vmReservInit]
  · simp [vmReservInit]
  · simp [vmReservInit]

/-- What a call that may hand out pages means for the run. -/
theorem Gives.kept {w : World} (hk : Kept w) {n : Nat} {m : Option Nat} {s' : State} {op : Op}
    (h : Gives w.state w.used n m s') (hop : ∀ p, op ≠ .freePage p) :
    Kept ⟨s', usedAfterwards w.used op (m.map (·, n))⟩ ∧ Fresh w (m.map (·, n)) := by
  rcases h with ⟨rfl, rfl⟩ | ⟨p, rfl, hunused, hok, hlive⟩
  · refine ⟨?_, nofun⟩
    cases op with
    | freePage p => exact absurd rfl (hop p)
    | _ => exact hk
  constructor
  · cases op with
    | freePage p => exact absurd rfl (hop p)
    | _ => exact ⟨hok, hlive⟩
  intro m' n' he
  rw [Option.map_some, Option.some.injEq, Prod.mk.injEq] at he
  rcases he with ⟨rfl, rfl⟩
  exact hunused

theorem step_keeps (w : World) (op : Op) (hk : Kept w) (ha : Allowed w op) :
    ∃ run s', exec w.state op = some (run, s') ∧ Kept ⟨s', usedAfterwards w.used op run⟩ ∧
      Fresh w run := by
  rcases ha with ⟨howed, havoid⟩
  have hnone : Fresh w none := fun m n he => nomatch he
  cases op with
  | physAlloc m n =>
    rcases hk.1.taken m n howed with ⟨hok, hrun⟩
    have hout := hok.useOutside m n (fun p hlo hhi => ⟨(hrun p hlo hhi).1, (hrun p hlo hhi).2.2⟩)
    refine ⟨_, _, rfl, ⟨hout, fun r hr => hk.2 r hr⟩, fun m' n' he => ?_⟩
    rw [Option.some.injEq, Prod.mk.injEq] at he
    rcases he with ⟨rfl, rfl⟩
    exact fun p hlo hhi => (hrun p hlo hhi).2.1
  | allocPage object pindex mpred msucc phys =>
    rcases allocPage_gives hk.1 hk.2 object pindex mpred msucc phys howed with
      ⟨m, s', halloc, hgives⟩
    exact ⟨_, s', by rw [exec, halloc]; rfl, hgives.kept hk (fun _ => nofun)⟩
  | allocContig object pindex req mpred msucc phys =>
    rcases allocContig_gives hk.1 hk.2 object pindex req mpred msucc phys howed.1 howed.2.1
      howed.2.2.2 with ⟨m, s', halloc, hgives⟩
    exact ⟨_, s', by rw [exec, halloc]; rfl, hgives.kept hk (fun _ => nofun)⟩
  | freePage m =>
    rcases freePage_keeps hk.1 hk.2 m howed with ⟨found, s', hfree, hok, hlive⟩
    exact ⟨none, _, by rw [exec, hfree]; rfl, ⟨hok, hlive⟩, hnone⟩
  | reactivatePage m object color pindex =>
    rcases reactivatePage_gives hk.1 hk.2 m object color pindex howed.1 havoid with
      ⟨found, s', hre, hgives⟩
    exact ⟨_, s', by rw [exec, hre]; rfl, hgives.kept hk (fun _ => nofun)⟩
  | rename m newObject oldObject offset =>
    exact ⟨none, _, rfl, rename_keeps hk.1 hk.2 m newObject oldObject offset, hnone⟩
  | breakAll object =>
    rcases breakAllLoop_keeps object _ w.state hk.1 hk.2 rfl havoid with ⟨s', hbreak, hok, hlive⟩
    exact ⟨none, s', by rw [exec, breakAll, hbreak]; rfl, ⟨hok, hlive⟩, hnone⟩
  | reclaimInactive =>
    rcases reclaimInactive_keeps hk.1 hk.2 with ⟨found, s', hrec, hok, hlive⟩
    exact ⟨none, s', by rw [exec, hrec]; rfl, ⟨hok, hlive⟩, hnone⟩
  | reclaimContig req =>
    rcases reclaimContig_keeps hk.1 hk.2 req howed with ⟨found, s', hrec, hok, hlive⟩
    exact ⟨none, s', by rw [exec, hrec]; rfl, ⟨hok, hlive⟩, hnone⟩

/-- The records of the population of one reservation agree. -/
structure Agrees (s : State) (r : Nat) : Prop where
  count : (s.rv r).popcnt = WordMap.population (s.rv r).popmap 0 npages0
  queue : r ∈ s.partpop ↔ (s.rv r).object ≠ none ∧ 0 < (s.rv r).popcnt ∧ (s.rv r).popcnt < npages0
  psind : s.psind (r * npages0) = 1 ↔ (s.rv r).object ≠ none ∧ (s.rv r).popcnt = npages0
  idle : (s.rv r).object = none → (s.rv r).popmap = List.replicate npopmap 0#64 ∧ ∀ o, r ∉ s.rvq o

theorem RvOk.agrees {s : State} {u : Nat → Bool} {r : Nat} (h : RvOk s u r) : Agrees s r := by
  refine ⟨h.count, h.queue, ?_, fun hobj => ⟨?_, fun o hmem => ?_⟩⟩
  · rw [npages0, h.psind]
    split
    case isTrue hfull => simp only [hfull, ne_eq, not_false_eq_true, true_and, Nat.cast_ofNat]
    case isFalse hno => exact iff_of_false (by decide) hno
  · have hzero := h.words_zero (h.idle hobj)
    rw [List.any_eq_false] at hzero
    rw [List.eq_replicate_iff]
    refine ⟨h.len, fun w hw => ?_⟩
    have := hzero w hw
    simpa using this
  have := (h.lists o).mp hmem
  rw [hobj] at this
  cases this

/-- A page not in use is not populated. -/
theorem RvOk.clear {s : State} {u : Nat → Bool} {r i : Nat} (h : RvOk s u r) (hi : i < 512)
    (hunused : u (r * 512 + i) = false) : popmapIsSet (s.rv r).popmap i = false := by
  by_cases hobj : (s.rv r).object = none
  · exact (WordMap.population_eq_zero (s.rv r).popmap 0 512).mp
      (by have := h.count; have := h.idle hobj; omega) i zero_le (by omega)
  · exact ((h.pages hobj i hi).2).trans hunused

/-- After every run that stays clear of both slips, the records of every
    reservation agree; and the pages the next such operation hands out were neither
    in use nor populated, and are not in the free lists. -/
theorem reservations_agree (free : Nat → Bool) (ops : List Op)
    (h : EveryStep step Allowed ⟨vmReservInit free, fun _ => false⟩ ops) :
    ∃ w, runOps step ⟨vmReservInit free, fun _ => false⟩ ops = some w ∧ (∀ r, Agrees w.state r) ∧
      ∀ op m n s', Allowed w op → exec w.state op = some (some (m, n), s') →
        ∀ p, m ≤ p → p < m + n → w.used p = false ∧
          popmapIsSet (w.state.rv (p / npages0)).popmap (p % npages0) = false ∧
          s'.free p = false := by
  rcases runOps_progress_of step Allowed Kept (fun w op hk ha => by
    rcases step_keeps w op hk ha with ⟨run, s', hexec, hk', -⟩
    exact ⟨_, by rw [step, hexec]; rfl, hk'⟩) ops _ (vmReservInit_kept free) h with ⟨w, hrun, hk⟩
  refine ⟨w, hrun, fun r => (hk.1.each r).agrees, fun op m n s' ha hexec p hlo hhi => ?_⟩
  rcases step_keeps w op hk ha with ⟨run, s₁, hexec₁, hk', hfresh⟩
  rw [hexec, Option.some.injEq, Prod.mk.injEq] at hexec₁
  rcases hexec₁ with ⟨rfl, rfl⟩
  have hunused := hfresh m n rfl p hlo hhi
  refine ⟨hunused, ?_, ?_⟩
  · refine (hk.1.each (p / npages0)).clear (Nat.mod_lt p (by decide)) ?_
    rw [npages0, Nat.div_add_mod' p 512]
    exact hunused
  -- In use afterwards, so not free.
  have hused : usedAfterwards w.used op (some (m, n)) p = true := by
    cases op with
    | freePage q =>
      rw [exec, Option.map_eq_some_iff] at hexec
      rcases hexec with ⟨a, -, ha⟩
      cases (Prod.mk.inj ha).1
    | _ => exact (useRun_eq_true _ _ _ _).mpr (.inr ⟨hlo, hhi⟩)
  rw [← Bool.not_eq_true]
  intro hf
  have hnot : usedAfterwards w.used op (some (m, n)) p = false := hk'.1.apart p hf
  rw [hused] at hnot
  cases hnot

/-- An allocator that has the first superpage to give. -/
def firstSuperpage (req : Request) : Option Nat := if req.npages = 512 then some 0 else none

theorem firstSuperpage_ok : PhysOk (fun p => decide (p < 2048)) firstSuperpage := by
  intro req m hm
  rw [firstSuperpage] at hm
  split at hm
  case isTrue hn =>
    rw [← Option.some.inj hm, hn]
    exact ⟨⟨0, rfl⟩, fun p _ hp => decide_eq_true (by omega)⟩
  case isFalse => cases hm

/-- A page of a new reservation is handed out and given back, and the allocator
    has the superpage again. -/
theorem reservations_agree_example :
    ∃ w, runOps step ⟨vmReservInit (fun p => p < 2048), fun _ => false⟩
        [.allocPage ⟨1, 0#64, 10000#64, false⟩ 5#64 none none firstSuperpage, .freePage 5,
          .reclaimInactive] = some w ∧
      ∀ r, Agrees w.state r := by
  have hused : (step ⟨vmReservInit (fun p => p < 2048), fun _ => false⟩
      (.allocPage ⟨1, 0#64, 10000#64, false⟩ 5#64 none none firstSuperpage)).all
        (fun w => w.used 5) = true := by
    decide
  have hallow : EveryStep step Allowed ⟨vmReservInit (fun p => p < 2048), fun _ => false⟩
      [.allocPage ⟨1, 0#64, 10000#64, false⟩ 5#64 none none firstSuperpage, .freePage 5,
        .reclaimInactive] := by
    refine ⟨⟨firstSuperpage_ok, trivial⟩, fun w hw => ⟨⟨?_, trivial⟩, fun w' _ =>
      ⟨⟨trivial, trivial⟩, fun _ _ => trivial⟩⟩⟩
    rw [Option.mem_def.mp hw] at hused
    exact hused
  rcases reservations_agree (fun p => p < 2048) _ hallow with ⟨w, hrun, hagree, -⟩
  exact ⟨w, hrun, hagree⟩

/-- An object takes a whole superpage and is terminated with all of the pages in
    use. Its reservation is inactive, and the superpage still counts as one large
    page. -/
theorem break_all_stale_psind :
    ∃ w, EveryStep step Owed ⟨vmReservInit (fun p => p < 2048), fun _ => false⟩
        [.allocContig ⟨1, 0#64, 10000#64, false⟩ 0#64 ⟨512, 0#64, BitVec.allOnes 64, 1#64, 0#64⟩ none
          none firstSuperpage, .breakAll 1] ∧
      runOps step ⟨vmReservInit (fun p => p < 2048), fun _ => false⟩
        [.allocContig ⟨1, 0#64, 10000#64, false⟩ 0#64 ⟨512, 0#64, BitVec.allOnes 64, 1#64, 0#64⟩ none
          none firstSuperpage, .breakAll 1] = some w ∧
      w.state.psind 0 = 1 ∧ (w.state.rv 0).object = none := by
  have hsome : (runOps step ⟨vmReservInit (fun p => p < 2048), fun _ => false⟩
      [.allocContig ⟨1, 0#64, 10000#64, false⟩ 0#64 ⟨512, 0#64, BitVec.allOnes 64, 1#64, 0#64⟩ none
        none firstSuperpage, .breakAll 1]).any
      (fun w => decide (w.state.psind 0 = 1) && decide ((w.state.rv 0).object = none)) = true := by
    decide +kernel
  rcases (Option.any_eq_true _ _).mp hsome with ⟨w, hrun, hw⟩
  rw [Bool.and_eq_true, decide_eq_true_eq, decide_eq_true_eq] at hw
  refine ⟨w, ⟨⟨firstSuperpage_ok, by decide, by decide, 0, rfl⟩, fun w' _ =>
    ⟨trivial, fun _ _ => trivial⟩⟩, hrun, hw⟩

end FreeBSDKern.Reserv
