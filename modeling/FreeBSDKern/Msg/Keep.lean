import FreeBSDKern.Msg.Pool

/-!
# The Messages and Their Owners

Headers are divided like the segments: on the free list, on the list of one queue, or
in transit in one thread. `Core` is the invariant but for the threads, and with some
queues left out, for the time in which `IPC_RMID` takes one apart. The operations on
messages are moves between owners, and `Frame` is what the threads other than the
one that runs rely on: the messages they have in transit stay theirs, with their
segments and the links of these.

## Main definitions

* `Owner`, `Ghost`: Who has which headers and segments.
* `QueueOk`: The ends, the size and the number of the messages of a queue.
* `Core`: The invariant without the threads.
* `Frame`: Nothing of another thread's is touched.

## Theorems

* `Core.freehdr`, `Core.allocate`, `Core.enqueue`, `Core.take`: The moves.
-/

namespace FreeBSDKern.Msg

open Lib Function

/-- Who has a header. -/
inductive Owner where
  | free | queue (q : Nat) | transit (t : Nat)
  deriving DecidableEq

/-- The segments of the free list and of each header, and the headers of each
    owner. -/
structure Ghost where
  cells : Option Nat → List Nat
  cellOwner : Nat → Option Nat
  hdrs : Owner → List Nat
  hdrOwner : Nat → Owner

/-- The links of the headers from `p` visit the list and end. -/
def HdrChain (s : State) (p : Option Nat) (l : List Nat) : Prop :=
  Linked some (fun h => (s.msghdrs h).next) p l none

/-- The size of a list of messages. -/
def sumTs (s : State) (l : List Nat) : Int := (l.map (fun h => ((s.msghdrs h).ts : Int))).sum

theorem sumTs_cons (s : State) (h : Nat) (l : List Nat) :
    sumTs s (h :: l) = (s.msghdrs h).ts + sumTs s l := by
  rw [sumTs, List.map_cons, List.sum_cons]
  rfl

theorem sumTs_append (s : State) (l₁ l₂ : List Nat) :
    sumTs s (l₁ ++ l₂) = sumTs s l₁ + sumTs s l₂ := by
  rw [sumTs, List.map_append, List.sum_append]
  rfl

theorem sumTs_congr {s s' : State} (l : List Nat)
    (h : ∀ m ∈ l, (s'.msghdrs m).ts = (s.msghdrs m).ts) : sumTs s' l = sumTs s l := by
  refine congrArg List.sum (List.map_congr_left (fun m hm => ?_))
  rw [h m hm]

structure QueueOk (s : State) (q : Nat) (l : List Nat) : Prop where
  chain : HdrChain s (s.msqids q).first l
  last : (s.msqids q).last = l.getLast?
  cbytes : (s.msqids q).cbytes = sumTs s l
  qnum : (s.msqids q).qnum = (l.length : Int)

/-- Headers and segments each have one owner, the chains are as long as the
    messages need them, and the settled queues are in order. -/
structure Core (cfg : Config) (s : State) (g : Ghost) (settled : Nat → Prop) : Prop where
  pool : Pool cfg s.segs g.cells g.cellOwner
  parts : Bucketed g.hdrs (· < cfg.msgtql) g.hdrOwner
  free : HdrChain s s.freeMsghdrs (g.hdrs .free)
  used : ∀ o, o ≠ .free → ∀ h ∈ g.hdrs o, SegChain s.segs (s.msghdrs h).spot (g.cells (some h)) ∧
      (g.cells (some h)).length = segsNeeded cfg (s.msghdrs h).ts
  unused : ∀ h, (∀ o, o ≠ .free → h ∉ g.hdrs o) → g.cells (some h) = []
  queues : ∀ q, settled q → (s.msqids q).qbytes ≠ 0 → QueueOk s q (g.hdrs (.queue q))
  gone : ∀ q, settled q → (s.msqids q).qbytes = 0 → g.hdrs (.queue q) = []
  limit : ∀ q, (s.msqids q).qbytes ≤ cfg.msgmnb

/-- What a step of thread `t` leaves to the other threads. -/
structure Frame (s : State) (g : Ghost) (s' : State) (g' : Ghost) (t : Nat) : Prop where
  hdrs : ∀ t', t' ≠ t → g'.hdrs (.transit t') = g.hdrs (.transit t')
  cells : ∀ t', t' ≠ t → ∀ h ∈ g.hdrs (.transit t'), g'.cells (some h) = g.cells (some h) ∧
    ∀ a ∈ g.cells (some h), s'.segs.msgmaps a = s.segs.msgmaps a
  threads : ∀ t', t' ≠ t → s'.threads t' = s.threads t'

theorem Frame.refl (s : State) (g : Ghost) (t : Nat) : Frame s g s g t :=
  ⟨fun _ _ => rfl, fun _ _ _ _ => ⟨rfl, fun _ _ => rfl⟩, fun _ _ => rfl⟩

theorem Frame.trans {s s₁ s₂ : State} {g g₁ g₂ : Ghost} {t : Nat} (h₁ : Frame s g s₁ g₁ t)
    (h₂ : Frame s₁ g₁ s₂ g₂ t) : Frame s g s₂ g₂ t := by
  refine ⟨fun t' ht => (h₂.hdrs t' ht).trans (h₁.hdrs t' ht), fun t' ht h hh => ?_,
    fun t' ht => (h₂.threads t' ht).trans (h₁.threads t' ht)⟩
  rcases h₁.cells t' ht h hh with ⟨hc₁, hm₁⟩
  rcases h₂.cells t' ht h (by rw [h₁.hdrs t' ht]; exact hh) with ⟨hc₂, hm₂⟩
  refine ⟨hc₂.trans hc₁, fun a ha => ?_⟩
  exact (hm₂ a (by rw [hc₁]; exact ha)).trans (hm₁ a ha)

variable {cfg : Config} {s : State} {g : Ghost} {settled : Nat → Prop}

/-- Two owners have no header in common. -/
theorem Core.owner_eq (hc : Core cfg s g settled) {o o' : Owner} {h : Nat} (ho : h ∈ g.hdrs o)
    (ho' : h ∈ g.hdrs o') : o = o' :=
  ((hc.parts.mem o h).mp ho).2.symm.trans ((hc.parts.mem o' h).mp ho').2

theorem Core.length_le (hc : Core cfg s g settled) (o : Owner) :
    (g.hdrs o).length ≤ cfg.msgtql := by
  have hsub : g.hdrs o ⊆ List.range cfg.msgtql := fun h hh =>
    List.mem_range.mpr ((hc.parts.mem o h).mp hh).1
  have := (List.subperm_of_subset (hc.parts.nodup o) hsub).length_le
  rwa [List.length_range] at this

/-- What the ends and the sums of a queue depend on. -/
theorem QueueOk.congr {s s' : State} {q : Nat} {l : List Nat} (h : QueueOk s q l)
    (hhdr : ∀ m ∈ l, s'.msghdrs m = s.msghdrs m) (hfirst : (s'.msqids q).first = (s.msqids q).first)
    (hlast : (s'.msqids q).last = (s.msqids q).last)
    (hcbytes : (s'.msqids q).cbytes = (s.msqids q).cbytes)
    (hqnum : (s'.msqids q).qnum = (s.msqids q).qnum) : QueueOk s' q l := by
  refine ⟨?_, hlast.trans h.last, ?_, hqnum.trans h.qnum⟩
  · rw [hfirst]
    exact Linked.congr h.chain (fun m hm => by rw [hhdr m hm])
  · rw [hcbytes, h.cbytes]
    exact (sumTs_congr l (fun m hm => by rw [hhdr m hm])).symm

/-- A queue may change in any way that leaves it in order, if it is to be settled. -/
theorem Core.replaceQueue {settled' : Nat → Prop} (hc : Core cfg s g settled) {q : Nat} {v : Queue}
    (hsettled : ∀ q', q' ≠ q → settled' q' → settled q')
    (hlive : settled' q → v.qbytes ≠ 0 → QueueOk (s.setQueue q v) q (g.hdrs (.queue q)))
    (hgone : settled' q → v.qbytes = 0 → g.hdrs (.queue q) = []) (hlimit : v.qbytes ≤ cfg.msgmnb) :
    Core cfg (s.setQueue q v) g settled' := by
  have hself : (s.setQueue q v).msqids q = v := update_self ..
  have hother : ∀ q', q' ≠ q → (s.setQueue q v).msqids q' = s.msqids q' :=
    fun q' hne => update_of_ne hne _ _
  refine ⟨hc.pool, hc.parts, hc.free, hc.used, hc.unused, fun q' hs hq => ?_, fun q' hs hq => ?_,
    fun q' => ?_⟩
  all_goals by_cases hne : q' = q
  · subst hne
    exact hlive hs (hself ▸ hq)
  · rw [hother q' hne] at hq
    refine (hc.queues q' (hsettled q' hne hs) hq).congr (fun m _ => rfl) ?_ ?_ ?_ ?_
    all_goals rw [hother q' hne]
  · subst hne
    exact hgone hs (hself ▸ hq)
  · rw [hother q' hne] at hq
    exact hc.gone q' (hsettled q' hne hs) hq
  · subst hne
    rwa [hself]
  · rw [hother q' hne]
    exact hc.limit q'

/-- A queue whose list, size and limit are kept may change otherwise. -/
theorem Core.setQueue (hc : Core cfg s g settled) (q : Nat) (v : Queue)
    (hfirst : v.first = (s.msqids q).first) (hlast : v.last = (s.msqids q).last)
    (hcbytes : v.cbytes = (s.msqids q).cbytes) (hqnum : v.qnum = (s.msqids q).qnum)
    (hqbytes : v.qbytes = 0 ↔ (s.msqids q).qbytes = 0) (hlimit : v.qbytes ≤ cfg.msgmnb) :
    Core cfg (s.setQueue q v) g settled := by
  have hself : (s.setQueue q v).msqids q = v := update_self ..
  refine hc.replaceQueue (fun _ _ hs => hs) (fun hs hq => ?_)
    (fun hs hq => hc.gone q hs (hqbytes.mp hq)) hlimit
  refine (hc.queues q hs (fun h0 => hq (hqbytes.mpr h0))).congr (fun m _ => rfl) ?_ ?_ ?_ ?_
  all_goals rwa [hself]

theorem Core.setLocked (hc : Core cfg s g settled) (q : Nat) (b : Bool) :
    Core cfg (s.setLocked q b) g settled :=
  hc.setQueue q _ rfl rfl rfl rfl Iff.rfl (hc.limit q)

theorem Core.setThread (hc : Core cfg s g settled) (t : Nat) (th : Thread) :
    Core cfg (s.setThread t th) g settled :=
  ⟨hc.pool, hc.parts, hc.free, hc.used, hc.unused, fun q hs hq => (hc.queues q hs hq).congr
    (fun _ _ => rfl) rfl rfl rfl rfl, hc.gone, hc.limit⟩

theorem Frame.setQueue (s : State) (g : Ghost) (t q : Nat) (v : Queue) :
    Frame s g (s.setQueue q v) g t :=
  ⟨fun _ _ => rfl, fun _ _ _ _ => ⟨rfl, fun _ _ => rfl⟩, fun _ _ => rfl⟩

theorem Frame.setThread (s : State) (g : Ghost) (t : Nat) (th : Thread) :
    Frame s g (s.setThread t th) g t :=
  ⟨fun _ _ => rfl, fun _ _ _ _ => ⟨rfl, fun _ _ => rfl⟩, fun _ ht => update_of_ne ht _ _⟩

/-- A header without links of its own to keep goes from one owner to another. -/
theorem Core.parts_move (hc : Core cfg s g settled) {o o' : Owner} (hne : o ≠ o') {h : Nat}
    {hdrs' : Owner → List Nat} {rest : List Nat} (hfrom : (g.hdrs o).Perm (h :: rest))
    (hfrom' : hdrs' o = rest) (hto : (hdrs' o').Perm (h :: g.hdrs o'))
    (hother : ∀ k, k ≠ o → k ≠ o' → hdrs' k = g.hdrs k) :
    Bucketed hdrs' (· < cfg.msgtql) (fun m => if m ∈ [h] then o' else g.hdrOwner m) :=
  hc.parts.transfer hne [h] rest hfrom (by rw [hfrom']) hto hother

/-- A message is freed: its segments and its header go to the free lists. -/
theorem Core.freehdr (hc : Core cfg s g settled) (t : Nat) {o : Owner} (ho : o ≠ .free) {h : Nat}
    {rest : List Nat} (hown : g.hdrs o = h :: rest) (hq : ∀ q, settled q → o ≠ .queue q)
    (ht : ∀ t', t' ≠ t → o ≠ .transit t') :
    ∃ s' g', msgFreehdr cfg s h = some s' ∧ Core cfg s' g' settled ∧ Frame s g s' g' t ∧
      g'.hdrs o = rest ∧ (∀ k, k ≠ .free → k ≠ o → g'.hdrs k = g.hdrs k) ∧
      s'.threads = s.threads ∧ s'.msqids = s.msqids ∧ ∀ m, m ≠ h → s'.msghdrs m = s.msghdrs m := by
  have hmem : h ∈ g.hdrs o := by
    rw [hown]
    exact List.mem_cons_self
  have hrest : h ∉ rest := by
    have := hc.parts.nodup o
    rw [hown, List.nodup_cons] at this
    exact this.1
  have hnotfree : h ∉ g.hdrs .free := fun hf => ho (hc.owner_eq hmem hf)
  rcases hc.used o ho h hmem with ⟨hchain, hlen⟩
  rcases hc.pool.release h (s.msghdrs h).ts (s.msghdrs h).spot hchain hlen with
    ⟨p, cells, cellOwner, hloop, hpool, hempty, hcells, hmaps⟩
  let hdrs := update (update g.hdrs o rest) .free (h :: g.hdrs .free)
  have hdrs_free : hdrs .free = h :: g.hdrs .free := update_self ..
  have hdrs_o : hdrs o = rest := by
    simp only [hdrs, update_of_ne ho, update_self]
  have hdrs_other : ∀ k, k ≠ .free → k ≠ o → hdrs k = g.hdrs k := by
    intro k hk hk'
    simp only [hdrs, update_of_ne hk, update_of_ne hk']
  -- Another owner's header has another chain.
  have hmem' : ∀ k, k ≠ .free → ∀ m ∈ hdrs k, m ∈ g.hdrs k ∧ m ≠ h := by
    intro k hk m hm
    by_cases hko : k = o
    · subst hko
      rw [hdrs_o] at hm
      exact ⟨by rw [hown]; exact List.mem_cons_of_mem h hm, fun he => hrest (he ▸ hm)⟩
    · rw [hdrs_other k hk hko] at hm
      exact ⟨hm, fun he => hko (hc.owner_eq (he ▸ hm) hmem)⟩
  have hkeep : ∀ m, m ≠ h → cells (some m) = g.cells (some m) ∧
      ∀ a ∈ g.cells (some m), p.msgmaps a = s.segs.msgmaps a := by
    intro m hm
    have hne : (some m : Option Nat) ≠ some h := fun he => hm (Option.some.inj he)
    exact ⟨hcells (some m) (Option.some_ne_none m) hne, fun a ha =>
      hmaps a (hc.pool.apart hne ha)⟩
  have hhdr : ∀ m, m ≠ h → update s.msghdrs h
      { s.msghdrs h with ts := 0, spot := -1, next := s.freeMsghdrs } m = s.msghdrs m :=
    fun m hm => update_of_ne hm _ _
  refine ⟨{ s.setHdr h { s.msghdrs h with ts := 0, spot := -1, next := s.freeMsghdrs } with
      segs := p
      freeMsghdrs := some h },
    ⟨cells, cellOwner, hdrs, fun m => if m ∈ [h] then .free else g.hdrOwner m⟩, ?_,
    ⟨hpool, hc.parts_move ho (List.Perm.of_eq hown) hdrs_o (List.Perm.of_eq hdrs_free)
      (fun k hk hk' => hdrs_other k hk' hk), ?_, fun k hk m hm => ?_, fun m hm => ?_,
      fun q hs hqb => ?_, fun q hs hqb => ?_, hc.limit⟩,
    ⟨fun t' ht' => hdrs_other (.transit t') nofun (ht t' ht').symm,
      fun t' ht' m hm => hkeep m ?_, fun _ _ => rfl⟩, hdrs_o, hdrs_other, rfl, rfl, hhdr⟩
  · rw [msgFreehdr, hloop]
    rfl
  · -- The header is in front of the free ones.
    dsimp only
    rw [hdrs_free]
    have hpush := Linked.push hc.free hnotfree
    refine Linked.congr hpush (fun m _ => ?_)
    dsimp only [State.setHdr]
    by_cases hm : m = h
    · rw [hm, update_self, update_self]
    · rw [hhdr m hm, update_of_ne hm]
  · rcases hmem' k hk m hm with ⟨hmk, hmh⟩
    rcases hc.used k hk m hmk with ⟨hch, hln⟩
    dsimp only [State.setHdr]
    rw [hhdr m hmh, (hkeep m hmh).1]
    exact ⟨hch.congr (hkeep m hmh).2, hln⟩
  · by_cases hmh : m = h
    · rw [hmh]
      exact hempty
    refine (hkeep m hmh).1.trans (hc.unused m (fun k hk hmk => ?_))
    refine hm k hk ?_
    by_cases hko : k = o
    · subst hko
      rw [hown, List.mem_cons] at hmk
      dsimp only
      rw [hdrs_o]
      exact hmk.resolve_left hmh
    dsimp only
    rw [hdrs_other k hk hko]
    exact hmk
  · have hqo : (.queue q : Owner) ≠ o := fun he => hq q hs he.symm
    have hqf : (.queue q : Owner) ≠ .free := fun he => nomatch he
    dsimp only
    rw [hdrs_other _ hqf hqo]
    refine (hc.queues q hs hqb).congr (fun m hm => hhdr m ?_) rfl rfl rfl rfl
    exact fun he => hqo (hc.owner_eq (he ▸ hm) hmem)
  · dsimp only
    rw [hdrs_other (.queue q) nofun (fun he => hq q hs he.symm)]
    exact hc.gone q hs hqb
  · intro he
    exact ht t' ht' (hc.owner_eq hmem (he ▸ hm))

/-- A header and `n` segments leave the free lists, for a message of `ts` bytes. -/
theorem Core.allocate (hc : Core cfg s g settled) (t h ts : Nat) (type : BitVec 64)
    (hnone : g.hdrs (.transit t) = []) (hfree : s.freeMsghdrs = some h)
    (hn : (segsNeeded cfg ts : Int) ≤ s.segs.nfreeMsgmaps) :
    ∃ p spot g', allocSegments cfg (segsNeeded cfg ts) s.segs (-1) = some (p, spot) ∧ Core cfg
        { s.setHdr h { s.msghdrs h with spot := spot, ts := ts, type := type } with
          segs := p
          freeMsghdrs := (s.msghdrs h).next } g' settled ∧
      Frame s g
        { s.setHdr h { s.msghdrs h with spot := spot, ts := ts, type := type } with
          segs := p
          freeMsghdrs := (s.msghdrs h).next } g' t ∧
      g'.hdrs (.transit t) = [h] := by
  -- The first free header.
  have hlist : ∃ rest, g.hdrs .free = h :: rest ∧ HdrChain s (s.msghdrs h).next rest := by
    have hchain := hc.free
    rw [hfree] at hchain
    cases hl : g.hdrs .free with
    | nil =>
      rw [hl] at hchain
      cases hchain
    | cons a rest =>
      rw [hl] at hchain
      rcases hchain with ⟨ha, hrest⟩
      rw [← Option.some.inj ha] at hrest
      exact ⟨rest, by rw [Option.some.inj ha], hrest⟩
  rcases hlist with ⟨rest, hlist, hrest⟩
  have hmem : h ∈ g.hdrs .free := by
    rw [hlist]
    exact List.mem_cons_self
  have hnotrest : h ∉ rest := by
    have := hc.parts.nodup .free
    rw [hlist, List.nodup_cons] at this
    exact this.1
  have hnotused : ∀ o, o ≠ .free → h ∉ g.hdrs o := fun o ho hin => ho (hc.owner_eq hin hmem)
  rcases hc.pool.alloc h (segsNeeded cfg ts) (hc.unused h hnotused) hn with
    ⟨p, spot, cells, cellOwner, hloop, hpool, hchain, hlen, hcells, hmaps⟩
  let hdrs := update (update g.hdrs .free rest) (.transit t) [h]
  have hne : (.free : Owner) ≠ .transit t := fun he => nomatch he
  have hdrs_free : hdrs .free = rest := by
    simp only [hdrs, update_of_ne hne, update_self]
  have hdrs_t : hdrs (.transit t) = [h] := update_self ..
  have hdrs_other : ∀ k, k ≠ .free → k ≠ .transit t → hdrs k = g.hdrs k := by
    intro k hk hk'
    simp only [hdrs, update_of_ne hk, update_of_ne hk']
  have hkeep : ∀ m, m ≠ h → cells (some m) = g.cells (some m) ∧
      ∀ a ∈ g.cells (some m), p.msgmaps a = s.segs.msgmaps a := by
    intro m hm
    have hms : (some m : Option Nat) ≠ some h := fun he => hm (Option.some.inj he)
    exact ⟨hcells (some m) (Option.some_ne_none m) hms, fun a ha =>
      hmaps a (hc.pool.apart (Option.some_ne_none m) ha)⟩
  have hhdr : ∀ m, m ≠ h → update s.msghdrs h
      { s.msghdrs h with spot := spot, ts := ts, type := type } m = s.msghdrs m :=
    fun m hm => update_of_ne hm _ _
  refine ⟨p, spot, ⟨cells, cellOwner, hdrs, fun m => if m ∈ [h] then .transit t else g.hdrOwner m⟩,
    hloop, ⟨hpool, hc.parts_move hne (List.Perm.of_eq hlist) hdrs_free
      (List.Perm.of_eq (by rw [hnone]; exact hdrs_t)) hdrs_other, ?_, fun k hk m hm => ?_, fun m hm => ?_,
      fun q hs hqb => ?_, fun q hs hqb => ?_, hc.limit⟩,
    ⟨fun t' ht' => hdrs_other (.transit t') nofun
        (fun he => ht' (Owner.transit.inj he)),
      fun t' _ m hm => hkeep m (fun he => hnotused (.transit t') nofun (he ▸ hm)),
      fun _ _ => rfl⟩, hdrs_t⟩
  · dsimp only
    rw [hdrs_free]
    refine Linked.congr hrest (fun m hm => ?_)
    dsimp only [State.setHdr]
    rw [hhdr m (fun he => hnotrest (he ▸ hm))]
  · dsimp only [State.setHdr]
    by_cases hkt : k = .transit t
    · subst hkt
      replace hm : m ∈ hdrs (.transit t) := hm
      rw [hdrs_t, List.mem_singleton] at hm
      rw [hm, update_self]
      exact ⟨hchain, hlen⟩
    replace hm : m ∈ hdrs k := hm
    rw [hdrs_other k hk hkt] at hm
    have hmh : m ≠ h := fun he => hnotused k hk (he ▸ hm)
    rcases hc.used k hk m hm with ⟨hch, hln⟩
    rw [hhdr m hmh, (hkeep m hmh).1]
    exact ⟨hch.congr (hkeep m hmh).2, hln⟩
  · have hmh : m ≠ h := by
      intro he
      refine hm (.transit t) nofun ?_
      dsimp only
      rw [hdrs_t, he]
      exact List.mem_singleton_self h
    refine (hkeep m hmh).1.trans (hc.unused m (fun k hk hmk => ?_))
    by_cases hkt : k = .transit t
    · rw [hkt, hnone] at hmk
      cases hmk
    refine hm k hk ?_
    dsimp only
    rw [hdrs_other k hk hkt]
    exact hmk
  · dsimp only
    rw [hdrs_other (.queue q) nofun nofun]
    refine (hc.queues q hs hqb).congr (fun m hm => hhdr m ?_) rfl rfl rfl rfl
    exact fun he => hnotused (.queue q) nofun (he ▸ hm)
  dsimp only
  rw [hdrs_other (.queue q) nofun nofun]
  exact hc.gone q hs hqb

end FreeBSDKern.Msg
