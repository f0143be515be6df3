import FreeBSDKern.Rangelock.Queue

/-!
# Safety and Progress of Range Locks

The queue is in three parts: the granted writes, the granted reads, and the requests
that wait. A read is only compared with the first part, and a write that is
granted goes to its head, so the parts are what makes the two scans enough.

`Parts` is this order with what is known of each part. `calcLoop_spec` walks the
third part: each request it grants leaves for the end of the second part or the
head of the first, and it stops at one that meets a granted request.

## Main definitions

* `Parts`: The three parts of the queue.
* `Safe`: What a range lock should be, without the parts.

## Theorems

* `calcLoop_spec`: The grants of `rangelock_calc_block`.
* `Inv.exec`: One call.
* `rangelock_safe`: Every run.
-/

namespace FreeBSDKern.Rangelock

open Lib Function

/-- The granted writes, the granted reads, and the requests that wait. -/
structure Parts (waiters : List Nat) (ent : Nat → Entry) (W R P : List Nat) : Prop where
  queue : waiters = W ++ R ++ P
  once : (W ++ R ++ P).Nodup
  writes : ∀ x ∈ W, (ent x).granted = true ∧ (ent x).mode = .write
  reads : ∀ x ∈ R, (ent x).granted = true ∧ (ent x).mode = .read
  waiting : ∀ x ∈ P, (ent x).granted = false ∧ (ent x).start < (ent x).stop
  apart : (W ++ R).Pairwise (fun x y => Compatible (ent x) (ent y))

/-- A request meets a granted one. -/
def Conflicts (ent : Nat → Entry) (W R : List Nat) (id : Nat) : Prop :=
  ∃ g ∈ W ++ R, rangesOverlap (ent id) (ent g) = true ∧
    ¬ ((ent id).mode = .read ∧ (ent g).mode = .read)

/-- The invariant: the parts, and the first request that waits has to. -/
def Inv (l : Lock) : Prop :=
  ∃ W R P, Parts l.waiters l.entry W R P ∧ l.currdep = P.head? ∧
    ∀ id ∈ P.head?, Conflicts l.entry W R id

variable {waiters W R P : List Nat} {ent : Nat → Entry} {id : Nat} {l : Lock}

/-- The parts depend on the entries in the queue only. -/
theorem Parts.congr {ent' : Nat → Entry} (h : Parts waiters ent W R P)
    (heq : ∀ x ∈ W ++ R ++ P, ent' x = ent x) : Parts waiters ent' W R P := by
  have hWR : ∀ x ∈ W ++ R, ent' x = ent x := fun x hx => heq x (List.mem_append_left _ hx)
  refine ⟨h.queue, h.once, ?_, ?_, ?_, ?_⟩
  · intro x hx
    rw [hWR x (List.mem_append_left _ hx)]
    exact h.writes x hx
  · intro x hx
    rw [hWR x (List.mem_append_right _ hx)]
    exact h.reads x hx
  · intro x hx
    rw [heq x (List.mem_append_right _ hx)]
    exact h.waiting x hx
  refine h.apart.imp_of_mem ?_
  intro x y hx hy hxy
  rw [hWR x hx, hWR y hy]
  exact hxy

theorem Parts.granted_iff (h : Parts waiters ent W R P) {x : Nat} (hx : x ∈ waiters) :
    (ent x).granted = true ↔ x ∈ W ++ R := by
  rw [h.queue, List.mem_append] at hx
  constructor
  · intro hg
    rcases hx with hx | hx
    · exact hx
    · rw [(h.waiting x hx).1] at hg
      exact absurd hg Bool.false_ne_true
  intro hWR
  rcases List.mem_append.mp hWR with hW | hR
  · exact (h.writes x hW).1
  · exact (h.reads x hR).1

/-- Granted requests can leave. -/
theorem Parts.sublist {W' R' : List Nat} (h : Parts waiters ent W R P) (hW : W'.Sublist W)
    (hR : R'.Sublist R) : Parts (W' ++ R' ++ P) ent W' R' P where
  queue := rfl
  once := h.once.sublist ((hW.append hR).append_right P)
  writes := fun x hx => h.writes x (hW.mem hx)
  reads := fun x hx => h.reads x (hR.mem hx)
  waiting := h.waiting
  apart := h.apart.sublist (hW.append hR)

/-- The first waiting request is no member of the other parts. -/
theorem Parts.head_notMem (h : Parts waiters ent W R (id :: P)) : id ∉ W ++ R ∧ id ∉ P := by
  have hnd := List.nodup_append.mp h.once
  exact ⟨fun hin => hnd.2.2 id hin id List.mem_cons_self rfl, (List.nodup_cons.mp hnd.2.1).1⟩

/-- What the scans tell of the first request that waits. -/
theorem Parts.blocked_eq (h : Parts l.waiters l.entry W R (id :: P)) : ∃ b, blocked l id = some b ∧
      (b = true → Conflicts l.entry W R id) ∧
      (b = false → ∀ g ∈ W ++ R, Compatible (l.entry id) (l.entry g)) := by
  unfold blocked
  cases hmode : (l.entry id).mode with
  | read =>
    -- The first read behind the writes is granted, or it is the request itself.
    have hnext : ∃ y post, R ++ id :: P = y :: post ∧ (l.entry y).mode = .read := by
      cases hRc : R with
      | nil => exact ⟨id, P, rfl, hmode⟩
      | cons y ys => exact ⟨y, ys ++ id :: P, rfl, (h.reads y (by simp [hRc])).2⟩
    rcases hnext with ⟨y, post, hpost, hy⟩
    have hscan := meetsWrites_split l.entry (l.entry id) y W post
      (fun x hx => (h.writes x hx).2) hy
    rw [← hpost, ← List.append_assoc, ← h.queue] at hscan
    refine ⟨_, hscan, ?_, ?_⟩
    · intro hany
      rcases List.any_eq_true.mp hany with ⟨g, hg, hov⟩
      refine ⟨g, List.mem_append_left _ hg, hov, fun hboth => ?_⟩
      rw [(h.writes g hg).2] at hboth
      exact absurd hboth.2 (by decide)
    intro hany g hg
    rcases List.mem_append.mp hg with hW | hR
    · left
      exact Bool.eq_false_iff.mpr (List.any_eq_false.mp hany g hW)
    · exact Or.inr ⟨hmode, (h.reads g hR).2⟩
  | write =>
    have hscan := meetsBefore_split l.entry id (W ++ R) P h.head_notMem.1
    rw [← h.queue] at hscan
    refine ⟨_, hscan, ?_, ?_⟩
    · intro hany
      rcases List.any_eq_true.mp hany with ⟨g, hg, hov⟩
      refine ⟨g, hg, hov, fun hboth => ?_⟩
      rw [hmode] at hboth
      exact absurd hboth.1 (by decide)
    intro hany g hg
    left
    exact Bool.eq_false_iff.mpr (List.any_eq_false.mp hany g hg)

/-- The parts without the first request that waits. -/
theorem Parts.tail (h : Parts waiters ent W R (id :: P)) : Parts (W ++ R ++ P) ent W R P where
  queue := rfl
  once := h.once.sublist ((List.Sublist.refl (W ++ R)).append (List.sublist_cons_self id P))
  writes := h.writes
  reads := h.reads
  waiting := fun x hx => h.waiting x (List.mem_cons_of_mem _ hx)
  apart := h.apart

/-- A granted request leaves the third part. -/
theorem Parts.grant (h : Parts l.waiters l.entry W R (id :: P))
    (hok : ∀ g ∈ W ++ R, Compatible (l.entry id) (l.entry g)) :
    ∃ W' R', Parts (grant l id).waiters (grant l id).entry W' R' P := by
  have hid := h.head_notMem
  -- The record of the granted request, and that the others are as before.
  have hself : (Rangelock.grant l id).entry id = { l.entry id with granted := true } :=
    update_self id _ _
  have hother : ∀ x ∈ W ++ R ++ P, (Rangelock.grant l id).entry x = l.entry x := by
    intro x hx
    refine update_of_ne (fun heq => ?_) _ _
    subst heq
    rcases List.mem_append.mp hx with hWR | hP
    · exact hid.1 hWR
    · exact hid.2 hP
  have hrest := h.tail.congr hother
  have hnew : ∀ g ∈ W ++ R,
      Compatible ((Rangelock.grant l id).entry id) ((Rangelock.grant l id).entry g) := by
    intro g hg
    rw [hself, hother g (List.mem_append_left _ hg)]
    exact (hok g hg).shrink rfl rfl rfl rfl (Int.le_refl _) (Int.le_refl _)
  cases hmode : (l.entry id).mode with
  | read =>
    have hq : (Rangelock.grant l id).waiters = W ++ (R ++ [id]) ++ P := by
      unfold Rangelock.grant
      simp only [hmode, h.queue, List.append_assoc, List.cons_append, List.nil_append]
    refine ⟨W, R ++ [id], hq, ?_, hrest.writes, ?_, hrest.waiting, ?_⟩
    · have := h.once
      simpa only [List.append_assoc, List.cons_append, List.nil_append] using this
    · intro x hx
      rcases List.mem_append.mp hx with hx | hx
      · exact hrest.reads x hx
      · rw [List.mem_singleton.mp hx, hself]
        exact ⟨rfl, hmode⟩
    rw [← List.append_assoc, List.pairwise_append]
    refine ⟨hrest.apart, List.pairwise_singleton _ _, ?_⟩
    intro g hg x hx
    rw [List.mem_singleton.mp hx]
    exact (hnew g hg).symm
  | write =>
    have hq : (Rangelock.grant l id).waiters = (id :: W) ++ R ++ P := by
      unfold Rangelock.grant
      simp only [hmode, h.queue]
      rw [erase_split id (W ++ R) P hid.1]
      rfl
    refine ⟨id :: W, R, hq, ?_, ?_, hrest.reads, hrest.waiting, ?_⟩
    · exact (List.perm_middle.nodup_iff).mp h.once
    · intro x hx
      rcases List.mem_cons.mp hx with rfl | hx
      · rw [hself]
        exact ⟨rfl, hmode⟩
      · exact hrest.writes x hx
    · rw [List.cons_append, List.pairwise_cons]
      exact ⟨hnew, hrest.apart⟩

/-- `rangelock_calc_block` grants what it can and stops at a request that
    conflicts with a granted one. -/
theorem calcLoop_spec (P : List Nat) : ∀ (fuel : Nat) (l : Lock) (W R : List Nat),
    Parts l.waiters l.entry W R P → P.length < fuel →
      ∃ l', calcLoop fuel l P.head? = some l' ∧ Inv l' := by
  induction P with
  | nil =>
    intro fuel l W R h hfuel
    obtain ⟨n, rfl⟩ := Nat.exists_eq_add_of_lt hfuel
    refine ⟨{ l with currdep := none }, by simp [calcLoop], W, R, [], h, rfl, ?_⟩
    intro id hid
    cases hid
  | cons id P ih =>
    intro fuel l W R h hfuel
    cases fuel with
    | zero => exact absurd hfuel (Nat.not_lt_zero _)
    | succ fuel =>
      rw [List.length_cons, Nat.add_lt_add_iff_right] at hfuel
      rcases h.blocked_eq with ⟨b, hb, hwait, hfree⟩
      rw [List.head?_cons, calcLoop, hb]
      cases b with
      | true =>
        refine ⟨_, rfl, W, R, id :: P, h, rfl, ?_⟩
        intro x hx
        rw [List.head?_cons, Option.mem_some_iff] at hx
        exact hx ▸ hwait rfl
      | false =>
        rcases h.grant (hfree rfl) with ⟨W', R', h'⟩
        have hnext : next? l.waiters id = P.head? := by
          rw [h.queue]
          exact next?_split id (W ++ R) P h.head_notMem.1
        rw [hnext]
        exact ih fuel (Rangelock.grant l id) W' R' h' hfuel

theorem calcBlock_spec (h : Parts l.waiters l.entry W R P) (hdep : l.currdep = P.head?) :
    ∃ l', calcBlock l = some l' ∧ Inv l' := by
  have hlen : P.length < l.waiters.length + 1 := by
    rw [h.queue, List.length_append]
    omega
  unfold calcBlock
  rw [hdep]
  exact calcLoop_spec P _ l W R h hlen

theorem Inv.enqueue (h : Inv l) {start stop : Int} (mode : Mode) (hid : id ∉ l.waiters)
    (hrange : start < stop) : ∃ l', enqueue l id start stop mode = some l' ∧ Inv l' := by
  rcases h with ⟨W, R, P, hparts, hdep, -⟩
  rw [hparts.queue] at hid
  have hold : Parts l.waiters (update l.entry id ⟨start, stop, mode, false⟩) W R P := by
    refine hparts.congr (fun x hx => update_of_ne (fun heq => ?_) _ _)
    exact hid (heq ▸ hx)
  unfold Rangelock.enqueue
  refine calcBlock_spec (W := W) (R := R) (P := P ++ [id]) ?_ ?_
  · refine ⟨?_, ?_, hold.writes, hold.reads, ?_, hold.apart⟩
    · simp only [hparts.queue, List.append_assoc]
    · rw [← List.append_assoc]
      exact List.nodup_append.mpr ⟨hold.once, List.nodup_singleton id, fun a ha b hb heq =>
        hid (List.mem_singleton.mp hb ▸ heq ▸ ha)⟩
    intro x hx
    rcases List.mem_append.mp hx with hx | hx
    · exact hold.waiting x hx
    rw [List.mem_singleton.mp hx]
    simp only [update_self]
    exact ⟨trivial, hrange⟩
  simp only [hdep]
  cases P with
  | nil => rfl
  | cons x xs => rfl

theorem Inv.unlock (h : Inv l) (hid : id ∈ l.waiters) (hg : (l.entry id).granted = true) :
    ∃ l', unlock l id = some l' ∧ Inv l' := by
  rcases h with ⟨W, R, P, hparts, hdep, -⟩
  have hmem := (hparts.granted_iff hid).mp hg
  unfold Rangelock.unlock
  by_cases hW : id ∈ W
  · refine calcBlock_spec (W := W.erase id) (R := R) (P := P) ?_ hdep
    have hq : l.waiters.erase id = W.erase id ++ R ++ P := by
      rw [hparts.queue, List.append_assoc, List.erase_append_left _ hW, List.append_assoc]
    simp only [hq]
    exact hparts.sublist List.erase_sublist (List.Sublist.refl R)
  have hR : id ∈ R := (List.mem_append.mp hmem).resolve_left hW
  refine calcBlock_spec (W := W) (R := R.erase id) (P := P) ?_ hdep
  have hq : l.waiters.erase id = W ++ R.erase id ++ P := by
    rw [hparts.queue, List.append_assoc, List.erase_append_right _ hW,
      List.erase_append_left _ hR, List.append_assoc]
  simp only [hq]
  exact hparts.sublist (List.Sublist.refl W) List.erase_sublist

theorem Inv.unlockRange (h : Inv l) {stop : Int} (hid : id ∈ l.waiters)
    (hg : (l.entry id).granted = true) (hstop : stop ≤ (l.entry id).stop) :
    ∃ l', unlockRange l id stop = some l' ∧ Inv l' := by
  unfold Rangelock.unlockRange
  split
  case isTrue => exact h.unlock hid hg
  case isFalse =>
  rcases h with ⟨W, R, P, hparts, hdep, -⟩
  have hmem := (hparts.granted_iff hid).mp hg
  have hidP : id ∉ P := fun hP =>
    (List.nodup_append.mp hparts.once).2.2 id hmem id hP rfl
  -- One record changes, and in it only the end of the range.
  have hent : ∀ x, (update l.entry id { l.entry id with stop := stop } x).mode = (l.entry x).mode ∧
      (update l.entry id { l.entry id with stop := stop } x).granted = (l.entry x).granted ∧
      (update l.entry id { l.entry id with stop := stop } x).start = (l.entry x).start ∧
      (update l.entry id { l.entry id with stop := stop } x).stop ≤ (l.entry x).stop := by
    intro x
    by_cases hx : x = id
    · subst hx
      rw [update_self]
      exact ⟨rfl, rfl, rfl, hstop⟩
    · rw [update_of_ne hx]
      exact ⟨rfl, rfl, rfl, Int.le_refl _⟩
  refine calcBlock_spec (W := W) (R := R) (P := P) ?_ hdep
  refine ⟨hparts.queue, hparts.once, ?_, ?_, ?_, ?_⟩
  · intro x hx
    rw [(hent x).1, (hent x).2.1]
    exact hparts.writes x hx
  · intro x hx
    rw [(hent x).1, (hent x).2.1]
    exact hparts.reads x hx
  · intro x hx
    simp only [update_of_ne (fun heq : x = id => hidP (heq ▸ hx))]
    exact hparts.waiting x hx
  refine hparts.apart.imp ?_
  intro x y hxy
  exact hxy.shrink (hent x).1 (hent y).1 (hent x).2.2.1 (hent y).2.2.1
    (hent x).2.2.2 (hent y).2.2.2

theorem Inv.exec {op : Op} (h : Inv l) (hop : Permitted l op) :
    ∃ l', exec l op = some l' ∧ Inv l' := by
  cases op with
  | rlock id start stop => exact h.enqueue .read hop.1 hop.2
  | wlock id start stop => exact h.enqueue .write hop.1 hop.2
  | unlock id => exact h.unlock hop.1 hop.2
  | unlockRange id start stop => exact h.unlockRange hop.1 hop.2.1 hop.2.2.2

theorem Inv.init : Inv init := by
  refine ⟨[], [], [], ⟨rfl, List.nodup_nil, ?_, ?_, ?_, List.Pairwise.nil⟩, rfl, ?_⟩ <;>
    · intro x hx
      cases hx

/-- What a range lock should be. -/
structure Safe (l : Lock) : Prop where
  /-- No two granted entries overlap unless both are reads. -/
  apart : ∀ x ∈ l.waiters, ∀ y ∈ l.waiters, x ≠ y →
    (l.entry x).granted = true → (l.entry y).granted = true → Compatible (l.entry x) (l.entry y)
  /-- `rl_currdep` is the first entry that is not granted, and none behind it is. -/
  dep : (∃ pre id post, l.waiters = pre ++ id :: post ∧ l.currdep = some id ∧
      (∀ x ∈ pre, (l.entry x).granted = true) ∧ ∀ x ∈ id :: post, (l.entry x).granted = false) ∨
    (l.currdep = none ∧ ∀ x ∈ l.waiters, (l.entry x).granted = true)
  /-- The granted writes stand before all other entries. -/
  writes : ∃ pre post, l.waiters = pre ++ post ∧
    (∀ x ∈ pre, (l.entry x).granted = true ∧ (l.entry x).mode = .write) ∧
    ∀ x ∈ post, ¬ ((l.entry x).granted = true ∧ (l.entry x).mode = .write)
  /-- The first entry that waits conflicts with a granted one: they do not both
      read, and an offset is in both ranges (unless a partial unlock left
      the granted one without any). -/
  waits : ∀ id, l.currdep = some id → ∃ g ∈ l.waiters, (l.entry g).granted = true ∧
    ¬ ((l.entry id).mode = .read ∧ (l.entry g).mode = .read) ∧
    rangesOverlap (l.entry id) (l.entry g) = true ∧ ((l.entry g).start < (l.entry g).stop →
      ∃ off, ((l.entry id).start ≤ off ∧ off < (l.entry id).stop) ∧
        ((l.entry g).start ≤ off ∧ off < (l.entry g).stop))

theorem Inv.safe (h : Inv l) : Safe l := by
  rcases h with ⟨W, R, P, hparts, hdep, hconf⟩
  refine ⟨?_, ?_, ⟨W, R ++ P, ?_, hparts.writes, ?_⟩, ?_⟩
  · intro x hx y hy hne hgx hgy
    have hmx := (hparts.granted_iff hx).mp hgx
    have hmy := (hparts.granted_iff hy).mp hgy
    have : Std.Symm (fun x y => Compatible (l.entry x) (l.entry y)) :=
      ⟨fun _ _ hxy => hxy.symm⟩
    exact hparts.apart.forall hmx hmy hne
  · cases P with
    | nil =>
      refine Or.inr ⟨hdep, fun x hx => (hparts.granted_iff hx).mpr ?_⟩
      rw [hparts.queue, List.append_nil] at hx
      exact hx
    | cons id P =>
      refine Or.inl ⟨W ++ R, id, P, hparts.queue, hdep, fun x hx => ?_, fun x hx =>
        (hparts.waiting x hx).1⟩
      refine (hparts.granted_iff ?_).mpr hx
      rw [hparts.queue]
      exact List.mem_append_left _ hx
  · rw [hparts.queue, List.append_assoc]
  · rintro x hx ⟨hg, hw⟩
    rcases List.mem_append.mp hx with hR | hP
    · rw [(hparts.reads x hR).2] at hw
      exact absurd hw (by decide)
    · rw [(hparts.waiting x hP).1] at hg
      exact absurd hg Bool.false_ne_true
  intro id hid
  rw [hdep] at hid
  rcases hconf id hid with ⟨g, hg, hov, hmode⟩
  have hgq : g ∈ l.waiters := by
    rw [hparts.queue]
    exact List.mem_append_left _ hg
  have hrange := (hparts.waiting id (List.mem_of_mem_head? hid)).2
  exact ⟨g, hgq, (hparts.granted_iff hgq).mpr hg, hmode, hov,
    fun hproper => common_offset hrange hproper hov⟩

/-- Every run of permitted calls is completed, and leaves a safe lock. -/
theorem rangelock_safe (ops : List Op) (h : EveryStep exec Permitted init ops) :
    ∃ l, runOps exec init ops = some l ∧ Safe l := by
  rcases runOps_progress_of exec Permitted Inv (fun _ _ hinv hop => hinv.exec hop) ops init
    Inv.init h with ⟨l, hrun, hinv⟩
  exact ⟨l, hrun, hinv.safe⟩

/-- Two reads are granted together, a write waits for both, and a part of
    one of them is given back before they end. -/
theorem rangelock_safe_two_reads : ∃ l, runOps exec init
    [.rlock 0 0 10, .rlock 1 5 20, .wlock 2 8 12, .unlockRange 0 0 4, .unlock 1, .unlock 2] =
      some l ∧ Safe l :=
  rangelock_safe _ (by decide)

end FreeBSDKern.Rangelock
