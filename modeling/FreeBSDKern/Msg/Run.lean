import FreeBSDKern.Msg.Moves
import FreeBSDKern.Lib.Run

/-!
# Runs of the Message Queues

Any number of threads make calls, sleep, wake up and copy their messages, in any
order, and queues are removed and made anew meanwhile. The whole invariant holds
along every such run, and no panic is reached, as long as the sizes of the messages
that are accepted fit the field that holds them.

That field is an unsigned short. `msginit` checks that references to segments fit
theirs, but not that `msgmnb` bounds the size of a message accordingly. A message of
65536 bytes gets its segments and a size of zero, and freeing it ends in a panic
(`long_message_panics`). With `msgmnb` below that, every run is fine
(`msg_pool_small`).

## Main definitions

* `ThreadOk`: What a thread relies on while it does not hold the mutex.
* `Inv`: The invariant.
* `Fits`: The step does not accept a message that is too long.

## Theorems

* `step_keeps`: One step keeps the invariant.
* `msg_pool`, `msg_pool_small`: The invariant holds along every run.
* `long_message_panics`: A run that ends in a panic.
-/

namespace FreeBSDKern.Msg

open Lib Function

/-- The segments of message `h` that are still to be copied, from `next` on. -/
def ToCopy (s : State) (g : Ghost) (h : Nat) (next : Int) (rest : List Nat) : Prop :=
  (∀ a ∈ rest, a ∈ g.cells (some h)) ∧ SegChain s.segs next rest

/-- A thread that copies a message has it in transit, with as many segments ahead as
    there is left to copy; any other thread has none. -/
def ThreadOk (cfg : Config) (s : State) (g : Ghost) (t : Nat) : Thread → Prop
  | .sndCopy _ h next left => 0 < left ∧ g.hdrs (.transit t) = [h] ∧
      ∃ rest, ToCopy s g h next rest ∧ rest.length = segsNeeded cfg left
  | .rcvCopy _ h next len msgsz => len < msgsz ∧ g.hdrs (.transit t) = [h] ∧
      ∃ rest, ToCopy s g h next rest ∧ segsNeeded cfg (msgsz - len) ≤ rest.length
  | .done _ _ => g.hdrs (.transit t) = []
  | .sndSleep _ _ => g.hdrs (.transit t) = []
  | .rcvSleep _ => g.hdrs (.transit t) = []

/-- The free segments and the chains of the messages partition the segments, the free
    headers, the queues and the messages in transit partition the headers, the chains
    have the length their messages need, and the numbers of every queue are those of
    its messages. -/
structure Inv (cfg : Config) (s : State) (g : Ghost) : Prop where
  core : Core cfg s g (fun _ => True)
  threads : ∀ t, ThreadOk cfg s g t (s.threads t)

variable {cfg : Config} {s s₀ : State} {g g₀ : Ghost} {t : Nat}

theorem ThreadOk.frame {s' : State} {g' : Ghost} (hframe : Frame s g s' g' t) {t' : Nat}
    (ht : t' ≠ t) {th : Thread} (h : ThreadOk cfg s g t' th) : ThreadOk cfg s' g' t' th := by
  have hcopy : ∀ m next rest, g.hdrs (.transit t') = [m] → ToCopy s g m next rest →
      ToCopy s' g' m next rest := by
    intro m next rest hm hrest
    rcases hframe.cells t' ht m (hm ▸ List.mem_singleton_self m) with ⟨hcells, hmaps⟩
    refine ⟨fun a ha => ?_, hrest.2.congr (fun a ha => hmaps a (hrest.1 a ha))⟩
    rw [hcells]
    exact hrest.1 a ha
  have hhdrs := hframe.hdrs t' ht
  cases th with
  | done error retval | sndSleep a own | rcvSleep a => exact hhdrs.trans h
  | sndCopy a m next left =>
    rcases h with ⟨hleft, hm, rest, hrest, hlen⟩
    exact ⟨hleft, hhdrs.trans hm, rest, hcopy m next rest hm hrest, hlen⟩
  | rcvCopy a m next len msgsz =>
    rcases h with ⟨hleft, hm, rest, hrest, hlen⟩
    exact ⟨hleft, hhdrs.trans hm, rest, hcopy m next rest hm hrest, hlen⟩

/-- A step of thread `t` ends well. -/
def Ends (cfg : Config) (s : State) (g : Ghost) (t : Nat) (r : Option State) : Prop :=
  ∃ s' g', r = some s' ∧ Core cfg s' g' (fun _ => True) ∧ Frame s g s' g' t ∧
    ThreadOk cfg s' g' t (s'.threads t)

theorem Inv.of_ends (h : Inv cfg s g) {r : Option State} (hr : Ends cfg s g t r) :
    ∃ s' g', r = some s' ∧ Inv cfg s' g' := by
  rcases hr with ⟨s', g', hr, hcore, hframe, hth⟩
  refine ⟨s', g', hr, hcore, fun t' => ?_⟩
  by_cases ht : t' = t
  · rw [ht]
    exact hth
  · rw [hframe.threads t' ht]
    exact (h.threads t').frame hframe ht

/-- The step ends with the thread in a state that is in order. -/
theorem ends_setThread (hc : Core cfg s g (fun _ => True)) (hframe : Frame s₀ g₀ s g t)
    {th : Thread} (hth : ThreadOk cfg s g t th) : Ends cfg s₀ g₀ t (some (s.setThread t th)) := by
  refine ⟨_, g, rfl, hc.setThread t th, hframe.trans (Frame.setThread s g t th), ?_⟩
  rw [show (s.setThread t th).threads t = th from update_self ..]
  cases th <;> exact hth

/-- Clearing the lock at the end does no harm. -/
theorem Ends.setLocked {r : Option State} (h : Ends cfg s g t r) (q : Nat) (b : Bool) :
    Ends cfg s g t (r.map (fun s => s.setLocked q b)) := by
  rcases h with ⟨s', g', rfl, hcore, hframe, hth⟩
  refine ⟨_, g', rfl, hcore.setLocked q b, hframe.trans (Frame.setQueue s' g' t q _), ?_⟩
  change ThreadOk cfg (s'.setLocked q b) g' t (s'.threads t)
  revert hth
  cases s'.threads t <;> exact id

/-- The message in transit is freed and the call returns. -/
theorem freed_ends (hc : Core cfg s g (fun _ => True)) (hframe : Frame s₀ g₀ s g t) {h : Nat}
    (hown : g.hdrs (.transit t) = [h]) (error : Errno) (retval : Nat) :
    Ends cfg s₀ g₀ t ((msgFreehdr cfg s h).map (fun s => s.setThread t (.done error retval))) := by
  rcases hc.freehdr t (o := .transit t) nofun hown nofun
    (fun t' ht he => ht (Owner.transit.inj he).symm) with
    ⟨s', g', hfree, hcore, hframe', hnil, -⟩
  rw [hfree]
  exact ends_setThread hcore (hframe.trans hframe') hnil

theorem sndFinish_ends (hc : Core cfg s g (fun _ => True)) (hframe : Frame s₀ g₀ s g t) {h : Nat}
    (hown : g.hdrs (.transit t) = [h]) (a : SndArgs) (mac : Bool) :
    Ends cfg s₀ g₀ t (sndFinish cfg s t a h mac) := by
  have hc' := hc.setLocked (ipcidToIx a.msqid) false
  have hframe' := hframe.trans (Frame.setQueue s g t (ipcidToIx a.msqid)
    { s.msqids (ipcidToIx a.msqid) with locked := false })
  rw [sndFinish]
  split
  · exact freed_ends hc' hframe' hown .eidrm 0
  case isFalse hqb =>
  split
  · exact freed_ends hc' hframe' hown .eacces 0
  · rcases hc'.enqueue (ipcidToIx a.msqid) t h hown hqb with ⟨g', hcore, hframe'', hnil⟩
    exact ends_setThread hcore (hframe'.trans hframe'') hnil

theorem sndLoop_ends (hc : Core cfg s g (fun _ => True)) (hframe : Frame s₀ g₀ s g t) {h : Nat}
    (hown : g.hdrs (.transit t) = [h]) (a : SndArgs) (next : Int) (left : Nat) (mac : Bool)
    (rest : List Nat) (hrest : ToCopy s g h next rest) (hlen : rest.length = segsNeeded cfg left) :
    Ends cfg s₀ g₀ t (sndLoop cfg s t a h next left mac) := by
  rw [sndLoop]
  by_cases hleft : left > 0
  · rw [if_pos hleft]
    have hpos := segsNeeded_pos cfg left hleft
    rcases hrest.2.start (by omega) with ⟨c, rest', rfl, rfl, -⟩
    have hrange := hc.pool.range (hrest.1 c List.mem_cons_self)
    rw [if_neg (by omega)]
    exact ends_setThread hc hframe ⟨hleft, hown, c :: rest', hrest, hlen⟩
  rw [if_neg hleft]
  rw [show left = 0 by omega, segsNeeded_zero] at hlen
  have hnext := hrest.2.end_of_nil hlen
  rw [if_neg (fun hne => hne hnext)]
  exact sndFinish_ends hc hframe hown a mac

/-- The message is refused for its size, or its size fits. -/
def Sendable (s : State) (a : SndArgs) : Prop :=
  a.msgsz < 2 ^ 16 ∨ (s.msqids (ipcidToIx a.msqid)).qbytes < a.msgsz

section

variable (hc : Core cfg s g (fun _ => True)) (hframe : Frame s₀ g₀ s g t)
include hc hframe

theorem sndTry_ends (hown : g.hdrs (.transit t) = []) (a : SndArgs) (mac : Bool) (hsize : Sendable s a) :
    Ends cfg s₀ g₀ t (sndTry cfg s t a mac) := by
  rw [sndTry]
  dsimp only
  by_cases hbig : a.msgsz > (s.msqids (ipcidToIx a.msqid)).qbytes
  · rw [if_pos hbig]
    exact ends_setThread hc hframe hown
  rw [if_neg hbig]
  have hfits : a.msgsz % 2 ^ 16 = a.msgsz := Nat.mod_eq_of_lt (hsize.resolve_right hbig)
  have hc' := hc.setLocked (ipcidToIx a.msqid) true
  have hframe' := hframe.trans (Frame.setQueue s g t (ipcidToIx a.msqid)
    { s.msqids (ipcidToIx a.msqid) with locked := true })
  split
  · split
    · exact ends_setThread hc hframe hown
    · exact ends_setThread hc' hframe' hown
  case isFalse hmore =>
  rw [not_or, not_or, not_or] at hmore
  rcases hmore with ⟨-, -, hsegs, hhdr⟩
  rcases Option.ne_none_iff_exists'.mp hhdr with ⟨h, hfree⟩
  rw [hfree, hfits]
  dsimp only
  rcases hc'.allocate t h a.msgsz a.mtype hown hfree (by
    change (segsNeeded cfg a.msgsz : Int) ≤ s.segs.nfreeMsgmaps
    omega) with ⟨p, spot, g', halloc, hcore, hframe'', hown'⟩
  rw [halloc]
  dsimp only
  have hmem : h ∈ g'.hdrs (.transit t) := hown' ▸ List.mem_singleton_self h
  rcases hcore.used (.transit t) nofun h hmem with ⟨hchain, hlen⟩
  split
  · exact (freed_ends hcore (hframe'.trans hframe'') hown' .einval 0).setLocked _ _
  simp only [State.setHdr, update_self] at hchain hlen
  exact sndLoop_ends hcore (hframe'.trans hframe'') hown' a spot a.msgsz mac
    (g'.cells (some h)) ⟨fun _ ha => ha, hchain⟩ hlen

theorem rcvLoop_ends {h : Nat}
    (hown : g.hdrs (.transit t) = [h]) (a : RcvArgs) (next : Int) (len msgsz : Nat)
    (rest : List Nat) (hrest : ToCopy s g h next rest)
    (hlen : segsNeeded cfg (msgsz - len) ≤ rest.length) :
    Ends cfg s₀ g₀ t (rcvLoop cfg s t a h next len msgsz) := by
  rw [rcvLoop]
  by_cases hleft : len < msgsz
  · rw [if_pos hleft]
    have hpos := segsNeeded_pos cfg (msgsz - len) (by omega)
    rcases hrest.2.start (by omega) with ⟨c, rest', rfl, rfl, -⟩
    have hrange := hc.pool.range (hrest.1 c List.mem_cons_self)
    rw [if_neg (by omega)]
    exact ends_setThread hc hframe ⟨hleft, hown, c :: rest', hrest, hlen⟩
  · rw [if_neg hleft]
    exact freed_ends hc hframe hown .ok msgsz

theorem take_ends (hown : g.hdrs (.transit t) = []) (a : RcvArgs) {h : Nat} (pre : List Nat) {post : List Nat}
    (hlist : g.hdrs (.queue (ipcidToIx a.msqid)) = pre ++ h :: post)
    (hqb : (s.msqids (ipcidToIx a.msqid)).qbytes ≠ 0) : Ends cfg s₀ g₀ t
      (rcvTake cfg (unlinkMsg s (ipcidToIx a.msqid) h pre.getLast?) t a h) := by
  rcases hc.take (ipcidToIx a.msqid) t h hlist hown hqb with
    ⟨g', hcore, hframe', hown', hspot, hts⟩
  have hmem : h ∈ g'.hdrs (.transit t) := hown' ▸ List.mem_singleton_self h
  rcases hcore.used (.transit t) nofun h hmem with ⟨hchain, hlen⟩
  rw [rcvTake]
  refine rcvLoop_ends hcore (hframe.trans hframe') hown' a _ 0 _ (g'.cells (some h))
    ⟨fun _ ha => ha, hchain⟩ ?_
  rw [hlen]
  exact segsNeeded_mono cfg _ _ (by
    rw [Nat.sub_zero]
    exact Nat.min_le_right _ _)

end

/-- Taking the first message out is taking it out with none before it. -/
theorem unlinkFirst_eq {q h : Nat} {post : List Nat} (hok : QueueOk s q (h :: post))
    (hnodup : (h :: post).Nodup) : unlinkFirst s q h = some (unlinkMsg s q h none) := by
  rcases hok.chain with ⟨hfirst, hrest⟩
  rw [List.nodup_cons] at hnodup
  have hlast := hok.last
  cases post with
  | nil =>
    have hl : (s.msqids q).last = some h := hlast
    simp [unlinkFirst, unlinkMsg, hfirst, hl]
  | cons b post =>
    rw [List.getLast?_cons_of_ne_nil (List.cons_ne_nil b post)] at hlast
    have hne : (s.msqids q).last ≠ some h := by
      rw [hlast]
      exact fun he => hnodup.1 (List.mem_of_getLast? he)
    have hnext : (s.msghdrs h).next = some b := hrest.1
    simp [unlinkFirst, unlinkMsg, hfirst, hne, hne.symm, hnext]

section

variable (hc : Core cfg s g (fun _ => True))
include hc

theorem rcvTry_ends (hframe : Frame s₀ g₀ s g t)
    (hown : g.hdrs (.transit t) = []) (a : RcvArgs) (mac : Bool)
    (hqb : (s.msqids (ipcidToIx a.msqid)).qbytes ≠ 0) :
    Ends cfg s₀ g₀ t (rcvTry cfg s t a mac) := by
  have hok := hc.queues (ipcidToIx a.msqid) trivial hqb
  have hnodup := hc.parts.nodup (.queue (ipcidToIx a.msqid))
  have hwait : Ends cfg s₀ g₀ t (if a.nowait then some (s.setThread t (.done .enomsg 0))
      else some (s.setThread t (.rcvSleep a))) := by
    split
    · exact ends_setThread hc hframe hown
    · exact ends_setThread hc hframe hown
  rw [rcvTry]
  by_cases htyp : a.msgtyp = 0#64
  · rw [if_pos htyp]
    cases hl : g.hdrs (.queue (ipcidToIx a.msqid)) with
    | nil =>
      rw [hl] at hok
      have hfirst : (s.msqids (ipcidToIx a.msqid)).first = none := hok.chain
      rw [hfirst]
      exact hwait
    | cons h post =>
      rw [hl] at hok hnodup
      rw [hok.chain.1]
      dsimp only [Option.map_some]
      split
      · exact ends_setThread hc hframe hown
      split
      · exact ends_setThread hc hframe hown
      · rw [unlinkFirst_eq hok hnodup]
        exact take_ends hc hframe hown a [] hl hqb
  rw [if_neg htyp]
  rcases findMsg_spec s.msghdrs a.msgtyp (g.hdrs (.queue (ipcidToIx a.msqid))) cfg.msgtql []
    (s.msqids (ipcidToIx a.msqid)).first (hc.length_le _) hok.chain with
    hnone | ⟨h, pre, post, hsplit, hfind⟩
  · rw [List.getLast?_nil] at hnone
    rw [hnone]
    exact hwait
  rw [List.getLast?_nil] at hfind
  rw [hfind]
  dsimp only
  split
  · exact ends_setThread hc hframe hown
  split
  · exact ends_setThread hc hframe hown
  · exact take_ends hc hframe hown a _ hsplit hqb

theorem rcvWake_ends (hframe : Frame s₀ g₀ s g t)
    (hown : g.hdrs (.transit t) = []) (a : RcvArgs) (interrupted mac : Bool) :
    Ends cfg s₀ g₀ t (rcvWake cfg s t a interrupted mac) := by
  rw [rcvWake]
  split
  · exact ends_setThread hc hframe hown
  split
  · exact ends_setThread hc hframe hown
  case isFalse hgone =>
    rw [not_or] at hgone
    exact rcvTry_ends hc hframe hown a mac hgone.1

theorem msgget_ends (hown : g.hdrs (.transit t) = [])
    (key : Int) (creat excl permit racct : Bool) :
    Ends cfg s g t (some (msgget cfg s t key creat excl permit racct)) := by
  have hdone : ∀ error retval, Ends cfg s g t (some (s.setThread t (.done error retval))) :=
    fun error retval => ends_setThread hc (Frame.refl s g t) hown
  rw [msgget]
  split
  · split
    · exact hdone .eexist 0
    split
    · exact hdone .eacces 0
    · exact hdone .ok _
  split
  · split
    · exact hdone .enospc 0
    case h_2 q hfind =>
    split
    · exact hdone .enospc 0
    have hfree : (s.msqids q).qbytes = 0 := by
      have := List.find?_some hfind
      simp only [decide_eq_true_eq] at this
      exact this.1
    refine ends_setThread (g := g) ?_ (Frame.setQueue s g t q _) hown
    -- The slot had no messages, and has none now.
    have hnil := hc.gone q trivial hfree
    refine hc.replaceQueue (fun _ _ _ => trivial) (fun _ _ => ?_) (fun _ _ => hnil) le_rfl
    rw [hnil]
    refine ⟨?_, ?_, ?_, ?_⟩
    all_goals simp only [State.setQueue, update_self]
    · rfl
    · rfl
    · rfl
    · rfl
  · exact hdone .enoent 0

theorem ipcSet_ends (hown : g.hdrs (.transit t) = [])
    (msqid : BitVec 32) (permit priv : Bool) (qbytes : Nat) :
    Ends cfg s g t (some (ipcSet cfg s t msqid permit priv qbytes)) := by
  have hdone : ∀ error retval, Ends cfg s g t (some (s.setThread t (.done error retval))) :=
    fun error retval => ends_setThread hc (Frame.refl s g t) hown
  rw [ipcSet]
  dsimp only
  split
  · exact hdone .einval 0
  case isFalse hex =>
  rw [not_not] at hex
  split
  · exact hdone .eacces 0
  split
  · exact hdone .eacces 0
  split
  · exact hdone .einval 0
  case isFalse hzero =>
    refine ends_setThread (g := g) ?_ (Frame.setQueue s g t _ _) hown
    exact hc.setQueue _ _ rfl rfl rfl rfl
      (iff_of_false hzero hex.2.1) (Nat.min_le_right _ _)

theorem ipcRmid_ends (hown : g.hdrs (.transit t) = [])
    (msqid : BitVec 32) (permit : Bool) : Ends cfg s g t (ipcRmid cfg s t msqid permit) := by
  have hdone : ∀ error retval, Ends cfg s g t (some (s.setThread t (.done error retval))) :=
    fun error retval => ends_setThread hc (Frame.refl s g t) hown
  rw [ipcRmid]
  dsimp only
  split
  · exact hdone .einval 0
  case isFalse hex =>
  rw [not_not] at hex
  split
  · exact hdone .eacces 0
  have hok := hc.queues (ipcidToIx msqid) trivial hex.2.1
  have hc' : Core cfg s g (· ≠ ipcidToIx msqid) :=
    ⟨hc.pool, hc.parts, hc.free, hc.used, hc.unused, fun q _ => hc.queues q trivial,
      fun q _ => hc.gone q trivial, hc.limit⟩
  rcases rmidLoop_spec (ipcidToIx msqid) t _ s g cfg.msgtql (s.msqids (ipcidToIx msqid)).first hc'
    rfl (hc.length_le _) hok.chain hok.cbytes hok.qnum with
    ⟨s', g', hloop, hcore, hframe, hnil, htr, hbytes, hnum, -⟩
  rw [hloop]
  dsimp only
  rw [if_neg (by rw [hbytes, hnum]; simp)]
  exact ends_setThread (g := g') (hcore.replaceQueue (fun _ hne _ => hne)
    (fun _ hne => absurd rfl hne) (fun _ _ => hnil) zero_le) (hframe.trans (Frame.setQueue s' g' t _ _))
    (htr.trans hown)

end

/-- The message that the step may get the resources for. -/
def sending (s : State) (op : Nat × Op) : Option SndArgs :=
  match s.threads op.1, op.2 with
  | .done _ _, .msgsnd a _ _ _ => some a
  | .sndSleep a _, .wake _ _ => some a
  | _, _ => none

/-- The step does not accept a message whose size does not fit its field. -/
def Fits (s : State) (op : Nat × Op) : Prop := ∀ a ∈ sending s op, Sendable s a

instance (s : State) (a : SndArgs) : Decidable (Sendable s a) :=
  inferInstanceAs (Decidable (_ ∨ _))

instance (s : State) (op : Nat × Op) : Decidable (Fits s op) :=
  inferInstanceAs (Decidable (∀ a ∈ sending s op, Sendable s a))

theorem step_keeps (s : State) (op : Nat × Op) (h : ∃ g, Inv cfg s g) (hfits : Fits s op) :
    ∃ s', step cfg s op = some s' ∧ ∃ g, Inv cfg s' g := by
  rcases h with ⟨g, h⟩
  rcases op with ⟨t, op⟩
  have hth := h.threads t
  have hr := Frame.refl s g t
  -- It is enough that the step ends well for its own thread.
  have henough : Ends cfg s g t (step cfg s (t, op)) →
      ∃ s', step cfg s (t, op) = some s' ∧ ∃ g, Inv cfg s' g := by
    intro hends
    rcases h.of_ends hends with ⟨s', g', hs', hinv⟩
    exact ⟨s', hs', g', hinv⟩
  have hstay : step cfg s (t, op) = some s →
      ∃ s', step cfg s (t, op) = some s' ∧ ∃ g, Inv cfg s' g := fun hs => ⟨s, hs, g, h⟩
  cases hcase : s.threads t with
  | done error retval =>
    rw [hcase] at hth
    cases op with
    | msgget key creat excl permit racct =>
      refine henough ?_
      simp only [step, hcase]
      exact msgget_ends h.core hth key creat excl permit racct
    | ipcRmid msqid permit =>
      refine henough ?_
      simp only [step, hcase]
      exact ipcRmid_ends h.core hth msqid permit
    | ipcSet msqid permit priv qbytes =>
      refine henough ?_
      simp only [step, hcase]
      exact ipcSet_ends h.core hth msqid permit priv qbytes
    | msgsnd a permit racct mac =>
      refine henough ?_
      simp only [step, hcase]
      rw [msgsnd]
      split
      · exact ends_setThread h.core hr hth
      split
      · exact ends_setThread h.core hr hth
      split
      · exact ends_setThread h.core hr hth
      · exact sndTry_ends h.core hr hth a mac (hfits a (by simp only [sending, hcase]; rfl))
    | msgrcv a permit mac =>
      refine henough ?_
      simp only [step, hcase]
      rw [msgrcv]
      split
      · exact ends_setThread h.core hr hth
      case isFalse hex =>
      rw [not_not] at hex
      split
      · exact ends_setThread h.core hr hth
      · exact rcvTry_ends h.core hr hth a mac hex.2.1
    | wake error mac | copied ok mac => exact hstay (by simp only [step, hcase])
  | sndSleep a own =>
    rw [hcase] at hth
    cases op with
    | wake error mac =>
      refine henough ?_
      simp only [step, hcase]
      -- The lock is given up first, if it was this thread's.
      have hlock : ∃ s₁, (if own = true then s.setLocked (ipcidToIx a.msqid) false else s) = s₁ ∧
          Core cfg s₁ g (fun _ => True) ∧ Frame s g s₁ g t ∧
          (s₁.msqids (ipcidToIx a.msqid)).qbytes = (s.msqids (ipcidToIx a.msqid)).qbytes := by
        cases own with
        | true =>
          refine ⟨_, rfl, h.core.setLocked _ _, Frame.setQueue s g t _ _, ?_⟩
          simp only [if_true, State.setLocked, State.setQueue, update_self]
        | false => exact ⟨_, rfl, h.core, hr, rfl⟩
      rcases hlock with ⟨s₁, hs₁, hcore, hframe, hqb⟩
      unfold sndWake
      dsimp only
      rw [hs₁]
      have hsend : Sendable s₁ a := by
        rw [Sendable, hqb]
        exact hfits a (by simp only [sending, hcase]; rfl)
      cases error with
      | timedOut => exact sndTry_ends hcore hframe hth a mac hsend
      | interrupted => exact ends_setThread hcore hframe hth
      | woken =>
        dsimp only
        split
        · exact ends_setThread hcore hframe hth
        · exact sndTry_ends hcore hframe hth a mac hsend
    | _ => exact hstay (by simp only [step, hcase])
  | sndCopy a m next left =>
    rw [hcase] at hth
    rcases hth with ⟨hleft, hown, rest, hrest, hlen⟩
    cases op with
    | copied ok mac =>
      refine henough ?_
      simp only [step, hcase]
      rw [sndCopied]
      split
      · rw [segsNeeded_step cfg left hleft] at hlen
        rcases hrest.2.start (by omega) with ⟨c, rest', rfl, rfl, hrest'⟩
        rw [List.length_cons] at hlen
        refine sndLoop_ends h.core hr hown a _ _ mac rest'
          ⟨fun b hb => hrest.1 b (List.mem_cons_of_mem c hb), hrest'⟩ ?_
        rw [show left - min cfg.msgssz left = left - cfg.msgssz by omega]
        exact Nat.succ.inj hlen
      · exact (freed_ends h.core hr hown .efault 0).setLocked _ _
    | _ => exact hstay (by simp only [step, hcase])
  | rcvSleep a =>
    rw [hcase] at hth
    cases op with
    | wake error mac =>
      refine henough ?_
      simp only [step, hcase]
      exact rcvWake_ends h.core hr hth a _ mac
    | _ => exact hstay (by simp only [step, hcase])
  | rcvCopy a m next len msgsz =>
    rw [hcase] at hth
    rcases hth with ⟨hleft, hown, rest, hrest, hlen⟩
    cases op with
    | copied ok mac =>
      refine henough ?_
      simp only [step, hcase]
      rw [rcvCopied]
      split
      · rw [segsNeeded_step cfg (msgsz - len) (by omega)] at hlen
        rcases hrest.2.start (by omega) with ⟨c, rest', rfl, rfl, hrest'⟩
        rw [List.length_cons] at hlen
        refine rcvLoop_ends h.core hr hown a _ _ msgsz rest'
          ⟨fun b hb => hrest.1 b (List.mem_cons_of_mem c hb), hrest'⟩ ?_
        rw [show msgsz - (len + cfg.msgssz) = msgsz - len - cfg.msgssz by omega]
        exact Nat.le_of_succ_le_succ hlen
      · exact freed_ends h.core hr hown .efault 0
    | _ => exact hstay (by simp only [step, hcase])

/-- At first everything is free. -/
theorem msginit_inv (cfg : Config) : ∃ g, Inv cfg (msginit cfg) g := by
  let segs : Option Nat → List Nat := fun o => if o = none then List.range' 0 cfg.msgseg else []
  let hdrs : Owner → List Nat := fun o => if o = .free then List.range' 0 cfg.msgtql else []
  have hsome : ∀ h, segs (some h) = [] := fun h => if_neg (Option.some_ne_none h)
  have hother : ∀ o, o ≠ .free → hdrs o = [] := fun o ho => if_neg ho
  refine ⟨⟨segs, fun _ => none, hdrs, fun _ => .free⟩, ⟨⟨⟨fun o a => ?_, fun o => ?_⟩, ?_, ?_⟩,
    ⟨fun o h => ?_, fun o => ?_⟩, ?_, fun o ho h hh => ?_, fun h _ => hsome h, fun q _ hq => ?_,
    fun q _ _ => hother (.queue q) nofun, fun q => zero_le⟩,
    fun t => hother (.transit t) nofun⟩
  · dsimp only [segs]
    split
    case isTrue ho =>
      rw [ho, List.mem_range'_1]
      simp
    case isFalse ho => exact iff_of_false List.not_mem_nil (fun hin => ho hin.2.symm)
  · dsimp only [segs]
    split
    · exact List.nodup_range'
    · exact List.nodup_nil
  · have hchain := linked_range' ref (msginit cfg).segs.msgmaps (-1) cfg.msgseg 0 (fun k _ hk => by
      rw [Nat.zero_add] at hk ⊢
      rfl)
    rw [if_pos cfg.seg.1] at hchain
    exact hchain
  · simp [segs, msginit]
  · dsimp only [hdrs]
    split
    case isTrue ho =>
      rw [ho, List.mem_range'_1]
      simp
    case isFalse ho => exact iff_of_false List.not_mem_nil (fun hin => ho hin.2.symm)
  · dsimp only [hdrs]
    split
    · exact List.nodup_range'
    · exact List.nodup_nil
  · have hchain := linked_range' some (fun h => ((msginit cfg).msghdrs h).next) none cfg.msgtql 0
      (fun k _ hk => by
        rw [Nat.zero_add] at hk ⊢
        rfl)
    rw [if_pos cfg.tql] at hchain
    exact hchain
  · replace hh : h ∈ hdrs o := hh
    rw [hother o ho] at hh
    cases hh
  · exact absurd rfl hq

/-- Along every run that accepts no message whose size does not fit, headers and
    segments stay partitioned among their owners, every chain and every queue is in
    order, and no panic is reached. -/
theorem msg_pool (cfg : Config) (ops : List (Nat × Op))
    (h : EveryStep (step cfg) Fits (msginit cfg) ops) :
    ∃ s, runOps (step cfg) (msginit cfg) ops = some s ∧ ∃ g, Inv cfg s g :=
  runOps_progress_of (step cfg) Fits (fun s => ∃ g, Inv cfg s g)
    (fun s op hinv hfits => step_keeps s op hinv hfits) ops _ (msginit_inv cfg) h

/-- With queues limited to what the field of the size can hold, no run needs a
    condition. -/
theorem msg_pool_small (cfg : Config) (hsmall : cfg.msgmnb < 2 ^ 16) (ops : List (Nat × Op)) :
    ∃ s, runOps (step cfg) (msginit cfg) ops = some s ∧ ∃ g, Inv cfg s g := by
  refine runOps_progress_of (step cfg) (fun _ _ => True) (fun s => ∃ g, Inv cfg s g)
    (fun s op hinv _ => step_keeps s op hinv (fun a _ => ?_)) ops _ (msginit_inv cfg)
    (everyStep_of_forall _ _ (fun _ _ => trivial) ops _)
  rcases hinv with ⟨g, hinv⟩
  have := hinv.core.limit (ipcidToIx a.msqid)
  rw [Sendable]
  omega

theorem msg_pool_small_example : ∃ s, runOps (step msginfo) (msginit msginfo)
    [(0, .msgget 5 true false true true), (1, .msgsnd ⟨65536#32, 12, false, 3#64⟩ true true true)] =
      some s ∧ ∃ g, Inv msginfo s g :=
  msg_pool_small msginfo (by decide) _

/-- An example: a message is sent, received in part, and its queue removed. -/
theorem msg_pool_example : ∃ s, runOps (step msginfo) (msginit msginfo)
        [(0, .msgget 5 true false true true), (1, .msgsnd ⟨65536#32, 12, false, 3#64⟩ true true true),
          (1, .copied true true), (2, .msgrcv ⟨65536#32, 20, 0#64, true, false⟩ true true),
          (1, .copied true true), (2, .msgrcv ⟨65536#32, 20, 0#64, true, false⟩ true true),
          (0, .ipcRmid 65536#32 true), (2, .copied false true)] = some s ∧
      ∃ g, Inv msginfo s g := by
  refine msg_pool msginfo _ ?_
  decide

/-- With a parameter `msgmnb` that lets a queue take more than 65535 bytes, a message
    of 65536 bytes is sent from an address that cannot be read. -/
theorem long_message_panics : ∃ cfg : Config, runOps (step cfg) (msginit cfg)
      [(0, .msgget 5 true false true true),
        (0, .msgsnd ⟨65536#32, 65536, false, 3#64⟩ true true true), (0, .copied false true)] =
      none := by
  refine ⟨⟨40, 70000, 40, 1024, 2048, ⟨10, by decide, by decide, rfl⟩, by decide, by decide⟩, ?_⟩
  have hnone : (runOps (step ⟨40, 70000, 40, 1024, 2048, ⟨10, by decide, by decide, rfl⟩, by decide,
      by decide⟩) (msginit ⟨40, 70000, 40, 1024, 2048, ⟨10, by decide, by decide, rfl⟩, by decide,
      by decide⟩) [(0, .msgget 5 true false true true),
        (0, .msgsnd ⟨65536#32, 65536, false, 3#64⟩ true true true),
        (0, .copied false true)]).isNone = true := by
    decide
  exact Option.isNone_iff_eq_none.mp hnone

end FreeBSDKern.Msg
