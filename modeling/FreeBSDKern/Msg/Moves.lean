import FreeBSDKern.Msg.Keep

/-!
# Messages Enter and Leave a Queue

The lists of a queue, changed by their links. A sender appends its message behind
the last one; a receiver takes one out, after the first message or somewhere on the
way, and moves the ends if it was the first or the last; `IPC_RMID` frees one after
the other, and leaves the ends of the queue dangling.

## Main definitions

* `moveHdr`: The lists after a message has gone from one owner to another.

## Theorems

* `Core.enqueue`, `Core.take`: One message more or less.
* `findMsg_spec`: The search by type finds a message of the queue.
* `rmidLoop_spec`: All messages are freed.
-/

namespace FreeBSDKern.Msg

open Lib Function

variable {cfg : Config} {s : State} {g : Ghost}

/-- A message goes between a queue and a thread, and only the links of their own
    messages change. -/
theorem Core.relist (hc : Core cfg s g (fun _ => True)) (q t : Nat) (s' : State)
    (hdrs' : Owner → List Nat) (hdrOwner' : Nat → Owner)
    (hparts : Bucketed hdrs' (· < cfg.msgtql) hdrOwner')
    (hsegs : s'.segs = s.segs) (hfree : s'.freeMsghdrs = s.freeMsghdrs)
    (hthreads : s'.threads = s.threads)
    (hsame : ∀ m, (s'.msghdrs m).ts = (s.msghdrs m).ts ∧ (s'.msghdrs m).spot = (s.msghdrs m).spot)
    (hhdr : ∀ m, m ∉ g.hdrs (.queue q) → m ∉ g.hdrs (.transit t) → s'.msghdrs m = s.msghdrs m)
    (hothers : ∀ q', q' ≠ q → s'.msqids q' = s.msqids q')
    (hqb : (s'.msqids q).qbytes = (s.msqids q).qbytes) (hne : (s.msqids q).qbytes ≠ 0)
    (hlists : ∀ k, k ≠ .queue q → k ≠ .transit t → hdrs' k = g.hdrs k)
    (hmem : ∀ m, m ∈ hdrs' (.queue q) ∨ m ∈ hdrs' (.transit t) ↔
      m ∈ g.hdrs (.queue q) ∨ m ∈ g.hdrs (.transit t))
    (hok : QueueOk s' q (hdrs' (.queue q))) :
    Core cfg s' ⟨g.cells, g.cellOwner, hdrs', hdrOwner'⟩ (fun _ => True) ∧
      Frame s g s' ⟨g.cells, g.cellOwner, hdrs', hdrOwner'⟩ t := by
  have hqf : (.queue q : Owner) ≠ .free := fun he => nomatch he
  have htf : (.transit t : Owner) ≠ .free := fun he => nomatch he
  -- The other owners' headers are as they were.
  have hkept : ∀ k, k ≠ .queue q → k ≠ .transit t → ∀ m ∈ g.hdrs k, s'.msghdrs m = s.msghdrs m :=
    fun k hk hk' m hm => hhdr m (fun he => hk (hc.owner_eq hm he)) (fun he => hk' (hc.owner_eq hm he))
  have hside : ∀ l l' : Owner → List Nat, (∀ k, k ≠ .queue q → k ≠ .transit t → l k = l' k) →
      (∀ m, m ∈ l (.queue q) ∨ m ∈ l (.transit t) → m ∈ l' (.queue q) ∨ m ∈ l' (.transit t)) →
      ∀ m, (∃ o, o ≠ .free ∧ m ∈ l o) → ∃ o, o ≠ .free ∧ m ∈ l' o := by
    rintro l l' hl hin m ⟨o, ho, hm⟩
    by_cases hpair : o = .queue q ∨ o = .transit t
    · have hm' : m ∈ l (.queue q) ∨ m ∈ l (.transit t) := by
        rcases hpair with rfl | rfl
        · exact .inl hm
        · exact .inr hm
      rcases hin m hm' with hm' | hm'
      · exact ⟨_, hqf, hm'⟩
      · exact ⟨_, htf, hm'⟩
    · rw [not_or] at hpair
      exact ⟨o, ho, hl o hpair.1 hpair.2 ▸ hm⟩
  have husers : ∀ m, (∃ o, o ≠ .free ∧ m ∈ hdrs' o) ↔ ∃ o, o ≠ .free ∧ m ∈ g.hdrs o := fun m =>
    ⟨hside _ _ hlists (fun m => (hmem m).mp) m,
      hside _ _ (fun k hk hk' => (hlists k hk hk').symm) (fun m => (hmem m).mpr) m⟩
  refine ⟨⟨by rw [hsegs]; exact hc.pool, hparts, ?_, fun o ho m hm => ?_, fun m hm => ?_,
    fun q' _ hqb' => ?_, fun q' _ hqb' => ?_, fun q' => ?_⟩, fun t' ht' => ?_, fun t' ht' m hm =>
      ⟨rfl, fun a _ => by rw [hsegs]⟩, fun t' _ => by rw [hthreads]⟩
  · dsimp only
    rw [hfree, hlists .free hqf.symm htf.symm]
    exact Linked.congr hc.free (fun m hm => by rw [hkept .free hqf.symm htf.symm m hm])
  · rcases (husers m).mp ⟨o, ho, hm⟩ with ⟨o', ho', hm'⟩
    rcases hc.used o' ho' m hm' with ⟨hch, hln⟩
    rw [(hsame m).1, (hsame m).2, hsegs]
    exact ⟨hch, hln⟩
  · refine hc.unused m (fun o ho hmo => ?_)
    rcases (husers m).mpr ⟨o, ho, hmo⟩ with ⟨o', ho', hm'⟩
    exact hm o' ho' hm'
  · by_cases hq : q' = q
    · rw [hq]
      exact hok
    have hne' : (.queue q' : Owner) ≠ .queue q := fun he => hq (Owner.queue.inj he)
    have hnet : (.queue q' : Owner) ≠ .transit t := fun he => nomatch he
    dsimp only
    rw [hothers q' hq] at hqb'
    rw [hlists _ hne' hnet]
    refine (hc.queues q' trivial hqb').congr (fun m hm => hkept _ hne' hnet m hm) ?_ ?_ ?_ ?_
    all_goals rw [hothers q' hq]
  · by_cases hq : q' = q
    · rw [hq, hqb] at hqb'
      exact absurd hqb' hne
    dsimp only
    rw [hothers q' hq] at hqb'
    rw [hlists (.queue q') (fun he => hq (Owner.queue.inj he)) nofun]
    exact hc.gone q' trivial hqb'
  · by_cases hq : q' = q
    · rw [hq, hqb]
      exact hc.limit q
    · rw [hothers q' hq]
      exact hc.limit q'
  · exact hlists (.transit t') nofun (fun he => ht' (Owner.transit.inj he))

/-- The lists after a message has gone from one owner to another. -/
def moveHdr (hdrs : Owner → List Nat) (o o' : Owner) (rest dest : List Nat) : Owner → List Nat :=
  update (update hdrs o rest) o' dest

theorem moveHdr_from (hdrs : Owner → List Nat) {o o' : Owner} (hne : o ≠ o') (rest dest : List Nat) :
    moveHdr hdrs o o' rest dest o = rest := by
  rw [moveHdr, update_of_ne hne, update_self]

theorem moveHdr_to (hdrs : Owner → List Nat) (o o' : Owner) (rest dest : List Nat) :
    moveHdr hdrs o o' rest dest o' = dest := update_self ..

theorem moveHdr_other (hdrs : Owner → List Nat) (o o' : Owner) (rest dest : List Nat) (k : Owner)
    (hk : k ≠ o) (hk' : k ≠ o') : moveHdr hdrs o o' rest dest k = hdrs k := by
  rw [moveHdr, update_of_ne hk', update_of_ne hk]

/-- Another link leaves the size and the segments of a message alone. -/
theorem setNext_same (f : Nat → Hdr) (z : Nat) (x : Option Nat) (m : Nat) :
    (update f z { f z with next := x } m).ts = (f m).ts ∧
      (update f z { f z with next := x } m).spot = (f m).spot := by
  by_cases hm : m = z
  · rw [hm, update_self]
    exact ⟨rfl, rfl⟩
  · rw [update_of_ne hm]
    exact ⟨rfl, rfl⟩

theorem setNext_next (f : Nat → Hdr) (z : Nat) (x : Option Nat) :
    (fun m => (update f z { f z with next := x } m).next) = update (fun m => (f m).next) z x := by
  funext m
  by_cases hm : m = z
  · rw [hm, update_self, update_self]
  · rw [update_of_ne hm, update_of_ne hm]

/-- The last message is linked to the new one, and nothing else is. -/
theorem enqueue_links {q h : Nat} {l : List Nat} (hok : QueueOk s q l) (hnodup : l.Nodup)
    (hnot : h ∉ l) : QueueOk (enqueue s q h) q (l ++ [h]) ∧
      (∀ m, ((enqueue s q h).msghdrs m).ts = (s.msghdrs m).ts ∧
        ((enqueue s q h).msghdrs m).spot = (s.msghdrs m).spot) ∧
      (∀ m, m ∉ l → m ≠ h → (enqueue s q h).msghdrs m = s.msghdrs m) := by
  rcases List.eq_nil_or_concat l with rfl | ⟨l, z, rfl⟩
  · have hfirst : (s.msqids q).first = none := hok.chain
    have hhdrs : (enqueue s q h).msghdrs =
        update s.msghdrs h { s.msghdrs h with next := none } := by
      simp only [enqueue, hfirst, State.setHdr, State.setQueue]
    have hq : (enqueue s q h).msqids q = { s.msqids q with
          first := some h, last := some h
          cbytes := (s.msqids q).cbytes + (s.msghdrs h).ts, qnum := (s.msqids q).qnum + 1 } := by
      simp only [enqueue, hfirst, State.setHdr, State.setQueue, if_true, update_self]
    have hsame : ∀ m, ((enqueue s q h).msghdrs m).ts = (s.msghdrs m).ts ∧
        ((enqueue s q h).msghdrs m).spot = (s.msghdrs m).spot := by
      intro m
      rw [hhdrs]
      exact setNext_same s.msghdrs h none m
    refine ⟨⟨?_, ?_, ?_, ?_⟩, hsame, fun m _ hm => by rw [hhdrs, update_of_ne hm]⟩
    · rw [hq]
      refine ⟨rfl, ?_⟩
      dsimp only
      rw [hhdrs, update_self]
      rfl
    · rw [hq]
      rfl
    · rw [hq, sumTs_congr _ (fun m _ => (hsame m).1)]
      dsimp only
      rw [hok.cbytes, sumTs_append, sumTs_cons]
      simp [sumTs]
    rw [hq]
    dsimp only
    rw [hok.qnum]
    rfl
  rw [List.concat_eq_append] at hok hnodup hnot ⊢
  have hlast : (s.msqids q).last = some z := by rw [hok.last, List.getLast?_concat]
  have hfirst : (s.msqids q).first ≠ none := by
    intro hf
    have := hok.chain.eq_nil (fun a => Option.some_ne_none a) hf
    exact List.append_ne_nil_of_right_ne_nil l (List.cons_ne_nil z []) this
  have hmem : z ∈ l ++ [z] := List.mem_append_right l (List.mem_singleton_self z)
  have hz : h ≠ z := fun he => hnot (he ▸ hmem)
  have hzl : z ∉ l := by
    rw [List.nodup_append] at hnodup
    exact fun hin => hnodup.2.2 z hin z (List.mem_singleton_self z) rfl
  rcases Option.ne_none_iff_exists'.mp hfirst with ⟨f, hf⟩
  have hhdrs : (enqueue s q h).msghdrs =
      update (update s.msghdrs z { s.msghdrs z with next := some h }) h
        { update s.msghdrs z { s.msghdrs z with next := some h } h with
          next := none } := by
    simp only [enqueue, hf, hlast, State.setHdr, State.setQueue]
  have hq : (enqueue s q h).msqids q = { s.msqids q with
        last := some h
        cbytes := (s.msqids q).cbytes + (s.msghdrs h).ts, qnum := (s.msqids q).qnum + 1 } := by
    simp only [enqueue, hf, hlast, State.setHdr, State.setQueue, reduceCtorEq, if_false,
      update_self, update_of_ne hz]
  have hsame : ∀ m, ((enqueue s q h).msghdrs m).ts = (s.msghdrs m).ts ∧
      ((enqueue s q h).msghdrs m).spot = (s.msghdrs m).spot := by
    intro m
    rw [hhdrs]
    have hfirst := setNext_same s.msghdrs z (some h) m
    have hthen := setNext_same (update s.msghdrs z { s.msghdrs z with next := some h }) h
      none m
    exact ⟨hthen.1.trans hfirst.1, hthen.2.trans hfirst.2⟩
  refine ⟨⟨?_, ?_, ?_, ?_⟩, hsame, fun m hm hmh => ?_⟩
  · rw [hq]
    dsimp only [HdrChain]
    rw [hhdrs, setNext_next, setNext_next]
    exact Linked.snoc hok.chain hzl hnot
  · rw [hq, List.getLast?_concat]
  · rw [hq, sumTs_congr _ (fun m _ => (hsame m).1)]
    dsimp only
    rw [hok.cbytes, sumTs_append _ (l ++ [z]), sumTs_cons]
    simp [sumTs]
  · rw [hq]
    dsimp only
    rw [hok.qnum, @List.length_append _ (l ++ [z])]
    rfl
  · rw [hhdrs, update_of_ne hmh, update_of_ne]
    exact fun he => hm (he ▸ hmem)

/-- A sender's message goes to the end of its queue. -/
theorem Core.enqueue (hc : Core cfg s g (fun _ => True)) (q t h : Nat)
    (hown : g.hdrs (.transit t) = [h]) (hqb : (s.msqids q).qbytes ≠ 0) :
    ∃ g', Core cfg (Msg.enqueue s q h) g' (fun _ => True) ∧
      Frame s g (Msg.enqueue s q h) g' t ∧ g'.hdrs (.transit t) = [] := by
  have hne : (.transit t : Owner) ≠ .queue q := fun he => nomatch he
  have hnot : h ∉ g.hdrs (.queue q) := fun hin =>
    hne (hc.owner_eq (hown ▸ List.mem_singleton_self h) hin)
  rcases enqueue_links (hc.queues q trivial hqb) (hc.parts.nodup (.queue q)) hnot with
    ⟨hok, hsame, hhdr⟩
  have hparts : Bucketed (moveHdr g.hdrs (.transit t) (.queue q) [] (g.hdrs (.queue q) ++ [h]))
      (· < cfg.msgtql) (fun m => if m ∈ [h] then .queue q else g.hdrOwner m) := by
    refine hc.parts_move hne (List.Perm.of_eq hown) (moveHdr_from _ hne _ _) ?_
      (moveHdr_other _ _ _ _ _)
    rw [moveHdr_to]
    exact List.perm_append_singleton h _
  have hrest : (Msg.enqueue s q h).segs = s.segs ∧ (Msg.enqueue s q h).freeMsghdrs = s.freeMsghdrs ∧
      (Msg.enqueue s q h).threads = s.threads ∧
      (∀ q', q' ≠ q → (Msg.enqueue s q h).msqids q' = s.msqids q') ∧
      ((Msg.enqueue s q h).msqids q).qbytes = (s.msqids q).qbytes := by
    unfold Msg.enqueue
    dsimp only
    split
    · exact ⟨rfl, rfl, rfl, fun q' hq' => update_of_ne hq' _ _, by
        simp only [State.setQueue, update_self]⟩
    · exact ⟨rfl, rfl, rfl, fun q' hq' => update_of_ne hq' _ _, by
        simp only [State.setQueue, update_self]⟩
  rcases hrest with ⟨hsegs, hfree, hthreads, hothers, hqb'⟩
  rcases hc.relist q t (Msg.enqueue s q h)
    (moveHdr g.hdrs (.transit t) (.queue q) [] (g.hdrs (.queue q) ++ [h])) _ hparts hsegs hfree
    hthreads hsame
    (fun m hm hm' => hhdr m hm (fun he => hm' (by rw [hown, he]; exact List.mem_singleton_self h)))
    hothers hqb' hqb (fun k hk hk' => moveHdr_other _ _ _ _ _ k hk' hk) (fun m => by
      rw [moveHdr_to, moveHdr_from _ hne, hown, List.mem_append]
      simp only [List.not_mem_nil, or_false]) (by rw [moveHdr_to]; exact hok) with
    ⟨hcore, hframe⟩
  exact ⟨_, hcore, hframe, by dsimp only; rw [moveHdr_from _ hne]⟩

/-- The last message is what is in front of the one that goes, if that is the last. -/
theorem getLast?_remove (pre : List Nat) {post : List Nat} {h : Nat} (hnot : h ∉ post) :
    (if (pre ++ h :: post).getLast? = some h then pre.getLast? else (pre ++ h :: post).getLast?) =
      (pre ++ post).getLast? := by
  rcases List.eq_nil_or_concat post with rfl | ⟨post, z, rfl⟩
  · rw [if_pos List.getLast?_concat, List.append_nil]
  rw [List.concat_eq_append] at hnot ⊢
  have hz : z ≠ h := fun he => hnot (he ▸ List.mem_append_right _ (List.mem_singleton_self z))
  rw [← List.cons_append, ← List.append_assoc, List.getLast?_concat, ← List.append_assoc,
    List.getLast?_concat, if_neg (fun he => hz (Option.some.inj he))]

/-- What taking a message out does to the links and the ends. -/
theorem unlink_links {q h : Nat} {pre post : List Nat} (hok : QueueOk s q (pre ++ h :: post))
    (hnodup : (pre ++ h :: post).Nodup) :
    QueueOk (countOut (unlinkMsg s q h pre.getLast?) q h) q (pre ++ post) ∧
      (∀ m, ((unlinkMsg s q h pre.getLast?).msghdrs m).ts = (s.msghdrs m).ts ∧
        ((unlinkMsg s q h pre.getLast?).msghdrs m).spot = (s.msghdrs m).spot) ∧
      (∀ m, m ∉ pre → (unlinkMsg s q h pre.getLast?).msghdrs m = s.msghdrs m) := by
  rcases List.nodup_append.mp hnodup with ⟨-, htail, hap⟩
  have hlast := getLast?_remove pre (List.nodup_cons.mp htail).1
  rw [← hok.last] at hlast
  have hcount : (s.msqids q).qnum - 1 = ((pre ++ post).length : Int) := by
    rw [hok.qnum, List.length_append, List.length_append, List.length_cons]
    push_cast
    omega
  have hbytes : (s.msqids q).cbytes - (s.msghdrs h).ts = sumTs s (pre ++ post) := by
    rw [hok.cbytes, sumTs_append, sumTs_append, sumTs_cons]
    omega
  rcases List.eq_nil_or_concat pre with rfl | ⟨l, z, rfl⟩
  · -- The message is the first one.
    rcases hok.chain with ⟨-, hrest⟩
    have hq : (countOut (unlinkMsg s q h none) q h).msqids q = { s.msqids q with
          first := (s.msghdrs h).next
          last := if (s.msqids q).last = some h then none else (s.msqids q).last
          cbytes := (s.msqids q).cbytes - (s.msghdrs h).ts, qnum := (s.msqids q).qnum - 1 } := by
      by_cases hh : (s.msqids q).last = some h
      · rw [if_pos hh] at hlast
        have hpost : post = [] := List.getLast?_eq_none_iff.mp hlast.symm
        subst hpost
        have hnext : (s.msghdrs h).next = none := hrest
        simp only [countOut, unlinkMsg, hh, State.setQueue, if_true, update_self, hnext]
      · simp only [countOut, unlinkMsg, hh, State.setQueue, if_false, update_self]
    refine ⟨?_, fun m => ⟨rfl, rfl⟩, fun m _ => rfl⟩
    rw [List.getLast?_nil]
    exact ⟨by rw [hq]; exact hrest, by rw [hq]; exact hlast, by rw [hq]; exact hbytes,
      by rw [hq]; exact hcount⟩
  rw [List.concat_eq_append] at hok hlast hcount hbytes hap ⊢
  rw [List.getLast?_concat] at hlast ⊢
  have happ' : l ++ [z] ++ post = l ++ z :: post := by simp
  have hchain := hok.chain
  rw [List.append_assoc, List.singleton_append] at hchain
  rw [happ'] at hcount hbytes hlast ⊢
  -- No message stands twice, so the one before keeps clear of the rest.
  have hzin : z ∈ l ++ [z] := List.mem_append_right l (List.mem_singleton_self z)
  have hhz : h ≠ z := fun he => hap z hzin h List.mem_cons_self he.symm
  have hzpost : z ∉ post := fun hin => hap z hzin z (List.mem_cons_of_mem h hin) rfl
  have hzl : z ∉ l := by
    have hl := (List.nodup_append.mp hnodup).1
    rw [List.concat_eq_append, List.nodup_append] at hl
    exact fun hin => hl.2.2 z hin z (List.mem_singleton_self z) rfl
  have hhdrs : (unlinkMsg s q h (some z)).msghdrs =
      update s.msghdrs z { s.msghdrs z with next := (s.msghdrs h).next } := rfl
  have hsame : ∀ m, ((unlinkMsg s q h (some z)).msghdrs m).ts = (s.msghdrs m).ts ∧
      ((unlinkMsg s q h (some z)).msghdrs m).spot = (s.msghdrs m).spot := by
    intro m
    rw [hhdrs]
    exact setNext_same s.msghdrs z _ m
  have hq : (countOut (unlinkMsg s q h (some z)) q h).msqids q = { s.msqids q with
        last := if (s.msqids q).last = some h then some z else (s.msqids q).last
        cbytes := (s.msqids q).cbytes - (s.msghdrs h).ts, qnum := (s.msqids q).qnum - 1 } := by
    simp only [countOut, unlinkMsg, State.setQueue, State.setHdr, update_self, update_of_ne hhz]
    split <;> rfl
  refine ⟨⟨?_, by rw [hq]; exact hlast, ?_, by rw [hq]; exact hcount⟩, hsame, fun m hm => ?_⟩
  · rw [hq]
    change Linked some (fun m => ((unlinkMsg s q h (some z)).msghdrs m).next) _ _ _
    rw [hhdrs, setNext_next]
    exact Linked.unlink hchain hzl hzpost
  · rw [hq]
    dsimp only
    rw [hbytes]
    exact (sumTs_congr _ (fun m _ => (hsame m).1)).symm
  rw [hhdrs, update_of_ne]
  rintro rfl
  exact hm hzin

/-- A receiver takes a message out of a queue. -/
theorem Core.take (hc : Core cfg s g (fun _ => True)) (q t h : Nat) {pre post : List Nat}
    (hlist : g.hdrs (.queue q) = pre ++ h :: post) (hnone : g.hdrs (.transit t) = [])
    (hqb : (s.msqids q).qbytes ≠ 0) :
    ∃ g', Core cfg (countOut (unlinkMsg s q h pre.getLast?) q h) g' (fun _ => True) ∧
      Frame s g (countOut (unlinkMsg s q h pre.getLast?) q h) g' t ∧ g'.hdrs (.transit t) = [h] ∧
      ((countOut (unlinkMsg s q h pre.getLast?) q h).msghdrs h).spot = (s.msghdrs h).spot ∧
      ((countOut (unlinkMsg s q h pre.getLast?) q h).msghdrs h).ts = (s.msghdrs h).ts := by
  have hne : (.queue q : Owner) ≠ .transit t := fun he => nomatch he
  have hnodup := hc.parts.nodup (.queue q)
  have hqok := hc.queues q trivial hqb
  rw [hlist] at hnodup hqok
  rcases unlink_links hqok hnodup with ⟨hok, hsame, hhdr⟩
  have hparts : Bucketed (moveHdr g.hdrs (.queue q) (.transit t) (pre ++ post) [h])
      (· < cfg.msgtql) (fun m => if m ∈ [h] then .transit t else g.hdrOwner m) := by
    refine hc.parts_move hne ?_ (moveHdr_from _ hne _ _) ?_ (moveHdr_other _ _ _ _ _)
    · rw [hlist]
      exact List.perm_middle
    · rw [moveHdr_to, hnone]
  have hrest : (unlinkMsg s q h pre.getLast?).segs = s.segs ∧
      (unlinkMsg s q h pre.getLast?).freeMsghdrs = s.freeMsghdrs ∧
      (unlinkMsg s q h pre.getLast?).threads = s.threads ∧
      (∀ q', q' ≠ q → (countOut (unlinkMsg s q h pre.getLast?) q h).msqids q' = s.msqids q') ∧
      ((countOut (unlinkMsg s q h pre.getLast?) q h).msqids q).qbytes = (s.msqids q).qbytes := by
    cases pre.getLast? with
    | none =>
      refine ⟨rfl, rfl, rfl, fun q' hq' => ?_, ?_⟩
      · exact (update_of_ne hq' _ _).trans (update_of_ne hq' _ _)
      simp only [countOut, unlinkMsg, State.setQueue, update_self]
      split
      · rfl
      · rfl
    | some z =>
      refine ⟨rfl, rfl, rfl, fun q' hq' => ?_, ?_⟩
      · exact (update_of_ne hq' _ _).trans (update_of_ne hq' _ _)
      simp only [countOut, unlinkMsg, State.setQueue, State.setHdr, update_self]
      split
      · rfl
      · rfl
  rcases hrest with ⟨hsegs, hfree, hthreads, hothers, hqb'⟩
  rcases hc.relist q t (countOut (unlinkMsg s q h pre.getLast?) q h)
    (moveHdr g.hdrs (.queue q) (.transit t) (pre ++ post) [h]) _ hparts hsegs hfree hthreads hsame
    (fun m hm _ => hhdr m (fun hin => hm (by rw [hlist]; exact List.mem_append_left _ hin)))
    hothers hqb' hqb (fun k hk hk' => moveHdr_other _ _ _ _ _ k hk hk') (fun m => by
      rw [moveHdr_to, moveHdr_from _ hne, hlist, hnone]
      simp only [List.mem_append, List.mem_cons, List.not_mem_nil, or_false]
      tauto) (by rw [moveHdr_from _ hne]; exact hok) with ⟨hcore, hframe⟩
  exact ⟨_, hcore, hframe, moveHdr_to _ _ _ _ _, (hsame h).2, (hsame h).1⟩

/-- The search by type, from the message after `pre` on. -/
theorem findMsg_spec (msghdrs : Nat → Hdr) (msgtyp : BitVec 64) (rest : List Nat) :
    ∀ (n : Nat) (pre : List Nat) (cur : Option Nat), rest.length ≤ n →
      Linked some (fun h => (msghdrs h).next) cur rest none →
      findMsg msghdrs msgtyp n pre.getLast? cur = some none ∨
        ∃ h pre' post, pre ++ rest = pre' ++ h :: post ∧
          findMsg msghdrs msgtyp n pre.getLast? cur = some (some (h, pre'.getLast?)) := by
  induction rest with
  | nil =>
    intro n pre cur _ hchain
    have hcur : cur = none := hchain
    subst hcur
    exact .inl (by rw [findMsg])
  | cons a rest ih =>
    intro n pre cur hn hchain
    rcases hchain with ⟨rfl, hrest⟩
    cases n with
    | zero => cases hn
    | succ n =>
      rw [findMsg]
      by_cases hm : typeMatches msgtyp (msghdrs a) = true
      · rw [if_pos hm]
        exact .inr ⟨a, pre, rest, rfl, rfl⟩
      rw [if_neg hm]
      rw [List.length_cons] at hn
      have := ih n (pre ++ [a]) _ (by omega) hrest
      rw [List.getLast?_concat, List.append_assoc, List.singleton_append] at this
      exact this

/-- With the queue out of the invariant, all its messages are freed. -/
theorem rmidLoop_spec (q t : Nat) (l : List Nat) : ∀ (s : State) (g : Ghost) (n : Nat)
    (cur : Option Nat), Core cfg s g (· ≠ q) → g.hdrs (.queue q) = l → l.length ≤ n →
    HdrChain s cur l → (s.msqids q).cbytes = sumTs s l → (s.msqids q).qnum = (l.length : Int) →
    ∃ s' g', rmidLoop cfg q n s cur = some s' ∧ Core cfg s' g' (· ≠ q) ∧ Frame s g s' g' t ∧
      g'.hdrs (.queue q) = [] ∧ g'.hdrs (.transit t) = g.hdrs (.transit t) ∧
      (s'.msqids q).cbytes = 0 ∧ (s'.msqids q).qnum = 0 ∧ s'.threads = s.threads := by
  induction l with
  | nil =>
    intro s g n cur hc hlist hn hchain hbytes hnum
    have hcur : cur = none := hchain
    subst hcur
    exact ⟨s, g, by rw [rmidLoop], hc, Frame.refl s g t, hlist, rfl, hbytes, hnum, rfl⟩
  | cons h l ih =>
    intro s g n cur hc hlist hn hchain hbytes hnum
    rcases hchain with ⟨rfl, hrest⟩
    rw [List.length_cons] at hn hnum
    cases n with
    | zero => omega
    | succ n =>
      -- The message no longer counts; the queue is out of the invariant anyway.
      have hc₁ : Core cfg (countOut s q h) g (· ≠ q) :=
        hc.replaceQueue (fun _ _ hs => hs) (fun hne => absurd rfl hne)
          (fun hne => absurd rfl hne) (hc.limit q)
      have hnodup := hc.parts.nodup (.queue q)
      rw [hlist, List.nodup_cons] at hnodup
      rcases hc₁.freehdr t (o := .queue q) nofun hlist
        (fun q' hq' he => hq' (Owner.queue.inj he).symm) nofun with
        ⟨s₁, g₁, hfree, hcore, hframe, hown, hothers, hthreads, hqs, hhdrs⟩
      have hkeep : ∀ m ∈ l, s₁.msghdrs m = s.msghdrs m :=
        fun m hm => hhdrs m (fun he => hnodup.1 (he ▸ hm))
      have hq₁ : s₁.msqids q = { s.msqids q with
          cbytes := (s.msqids q).cbytes - (s.msghdrs h).ts
          qnum := (s.msqids q).qnum - 1 } := by
        rw [hqs]
        simp only [countOut, State.setQueue, update_self]
      have hsum : sumTs s₁ l = sumTs s l := sumTs_congr l (fun m hm => by rw [hkeep m hm])
      rcases ih s₁ g₁ n (s.msghdrs h).next hcore hown (by omega)
        (Linked.congr hrest (fun m hm => by rw [hkeep m hm]))
        (by
          rw [hq₁, hsum]
          dsimp only
          rw [hbytes, sumTs_cons]
          omega)
        (by rw [hq₁]; dsimp only; rw [hnum]; push_cast; omega) with
        ⟨s', g', hloop, hcore', hframe', hnil, htr, hb, hn', hth⟩
      have hframe₀ : Frame s g (countOut s q h) g t := Frame.setQueue s g t q _
      refine ⟨s', g', by rw [rmidLoop, hfree]; exact hloop, hcore',
        (hframe₀.trans hframe).trans hframe', hnil, htr.trans ?_, hb, hn', ?_⟩
      · exact hothers (.transit t) nofun nofun
      · rw [hth, hthreads]
        rfl

end FreeBSDKern.Msg
