import FreeBSDKern.Unp.Model

/-!
# Descriptors in Control Mbufs are Counted

`Balanced` says that three counts are those of a list of file pointers: `unp_rights`
is its length, `unp_msgcount` of a local socket is the number of entries that refer to
it, and every entry holds one reference of its file, besides the references held
elsewhere and those of files whose closing is deferred. `unp_internalize_fp` adds an
entry, `unp_discard` takes one out, and so does `unp_externalize_fp` when the reference
goes to a descriptor table. Everything on the way of a control message is one of these
in a loop.

## Main definitions

* `Balanced`: The counts are those of a list.
* `SameQueues`: The receive buffers are unchanged.

## Theorems

* `Balanced.internalize`, `Balanced.freerights`, `Balanced.install`: The three loops.
* `walk_eq_of_length_lt`: The bound of the walk over a buffer is no bound.
-/

namespace FreeBSDKern.Unp

open Function

variable {files : Files} {s : State} {L : List Nat}

structure Balanced (files : Files) (s : State) (L : List Nat) : Prop where
  rights : s.rights = L.length
  msgcount : ∀ u, s.msgcount u = L.countP (fun fp => files.unp fp = some u)
  fcount : ∀ fp, s.fcount fp = s.others fp + s.defers.count fp + L.count fp

theorem Balanced.perm {L' : List Nat} (h : Balanced files s L) (hp : L.Perm L') :
    Balanced files s L' where
  rights := by rw [h.rights, hp.length_eq]
  msgcount := fun u => by rw [h.msgcount, hp.countP_eq]
  fcount := fun fp => by rw [h.fcount, hp.count_eq]

/-- What the loops over file pointers leave alone. -/
structure SameQueues (s s' : State) : Prop where
  queued : s'.queued = s.queued
  socks : s'.socks = s.socks

@[refl] theorem SameQueues.refl (s : State) : SameQueues s s := ⟨rfl, rfl⟩

theorem SameQueues.trans {s₁ s₂ s₃ : State} (h : SameQueues s₁ s₂) (h' : SameQueues s₂ s₃) :
    SameQueues s₁ s₃ :=
  ⟨h'.queued.trans h.queued, h'.socks.trans h.socks⟩

/-- A loop whose step leaves the receive buffers alone does so itself. -/
theorem SameQueues.foldl {f : State → Nat → State} (hf : ∀ s fp, SameQueues s (f s fp)) :
    ∀ (fps : List Nat) (s : State), SameQueues s (fps.foldl f s) := by
  intro fps
  induction fps with
  | nil => intro s; rfl
  | cons fp fps ih => intro s; exact (hf s fp).trans (ih (f s fp))

theorem internalizeFp_same (files : Files) (s : State) (fp : Nat) :
    SameQueues s (internalizeFp files s fp) := by
  unfold internalizeFp
  cases files.unp fp with
  | none | some u => exact ⟨rfl, rfl⟩

theorem discard_same (files : Files) (s : State) (fp : Nat) :
    SameQueues s (discard files s fp) := by
  unfold discard externalizeFp
  cases files.unp fp with
  | none | some u => exact ⟨rfl, rfl⟩

theorem freerights_same (files : Files) (s : State) (fdep : List Nat) :
    SameQueues s (freerights files s fdep) :=
  SameQueues.foldl (discard_same files) fdep s

theorem count_cons_int (g fp : Nat) (L : List Nat) :
    ((fp :: L).count g : Int) = L.count g + if g = fp then 1 else 0 := by
  by_cases hg : g = fp
  · rw [hg, List.count_cons_self, if_pos rfl]
    rfl
  · rw [List.count_cons_of_ne (fun he => hg he.symm), if_neg hg, add_zero]

theorem Balanced.internalizeFp (h : Balanced files s L) (fp : Nat) :
    Balanced files (internalizeFp files s fp) (fp :: L) := by
  have hunp : ∀ u, ((fp :: L).countP (fun fp => files.unp fp = some u) : Int) =
      L.countP (fun fp => files.unp fp = some u) + if files.unp fp = some u then 1 else 0 := by
    intro u
    rw [List.countP_cons]
    simp
  unfold Unp.internalizeFp
  cases hu : files.unp fp with
  | none =>
    refine ⟨?_, fun u => ?_, fun g => ?_⟩
    · simp [h.rights]
    · rw [hunp, hu, if_neg nofun, add_zero]
      exact h.msgcount u
    rw [count_cons_int]
    dsimp only
    have := h.fcount g
    split
    case isTrue hg =>
      rw [hg, update_self]
      rw [hg] at this
      omega
    case isFalse hg =>
      rw [update_of_ne hg]
      omega
  | some v =>
    refine ⟨?_, fun u => ?_, fun g => ?_⟩
    · simp [h.rights]
    · rw [hunp, hu]
      dsimp only
      have := h.msgcount u
      split
      case isTrue hv =>
        rw [← Option.some.inj hv] at this ⊢
        rw [update_self]
        omega
      case isFalse hv =>
        rw [update_of_ne (fun he => hv (by rw [he]))]
        omega
    rw [count_cons_int]
    dsimp only
    have := h.fcount g
    split
    case isTrue hg =>
      rw [hg, update_self]
      rw [hg] at this
      omega
    case isFalse hg =>
      rw [update_of_ne hg]
      omega

/-- The loop over the descriptors of a message that is sent. -/
theorem Balanced.internalize : ∀ (fps : List Nat) (s : State) (L : List Nat), Balanced files s L →
      Balanced files (fps.foldl (Unp.internalizeFp files) s) (L ++ fps) := by
  intro fps
  induction fps with
  | nil =>
    intro s L h
    rwa [List.append_nil]
  | cons fp fps ih =>
    intro s L h
    refine (ih _ _ (h.internalizeFp fp)).perm ?_
    exact List.perm_middle.symm

/-- Taking one entry out of the two counts of messages. -/
theorem Balanced.externalizeFp {fp : Nat} (h : Balanced files s (fp :: L)) :
    (externalizeFp files s fp).2.rights = L.length ∧ ∀ u, (externalizeFp files s fp).2.msgcount u =
        L.countP (fun fp => files.unp fp = some u) := by
  have hr := h.rights
  have hm := h.msgcount
  simp only [List.length_cons, List.countP_cons, decide_eq_true_eq] at hr hm
  unfold Unp.externalizeFp
  cases hu : files.unp fp with
  | none =>
    refine ⟨?_, fun u => ?_⟩
    · simp [hr]
    · simpa [hu] using hm u
  | some v =>
    refine ⟨?_, fun u => ?_⟩
    · simp [hr]
    have := hm u
    rw [hu] at this
    by_cases hv : u = v
    · rw [hv] at this ⊢
      simp only [if_pos] at this
      dsimp only
      rw [update_self]
      omega
    rw [if_neg (fun he => hv (Option.some.inj he).symm)] at this
    dsimp only
    rw [update_of_ne hv]
    omega

@[simp] theorem externalizeFp_fcount (files : Files) (s : State) (fp : Nat) :
    (externalizeFp files s fp).2.fcount = s.fcount := by
  unfold externalizeFp
  cases files.unp fp with
  | none => rfl
  | some u => rfl

@[simp] theorem externalizeFp_others (files : Files) (s : State) (fp : Nat) :
    (externalizeFp files s fp).2.others = s.others := by
  unfold externalizeFp
  cases files.unp fp with
  | none => rfl
  | some u => rfl

@[simp] theorem externalizeFp_defers (files : Files) (s : State) (fp : Nat) :
    (externalizeFp files s fp).2.defers = s.defers := by
  unfold externalizeFp
  cases files.unp fp with
  | none => rfl
  | some u => rfl

theorem externalizeFp_same (files : Files) (s : State) (fp : Nat) :
    SameQueues s (externalizeFp files s fp).2 := by
  unfold externalizeFp
  cases files.unp fp with
  | none | some u => exact ⟨rfl, rfl⟩

theorem Balanced.discard {fp : Nat} (h : Balanced files s (fp :: L)) :
    Balanced files (discard files s fp) L := by
  have hcount := h.fcount
  simp only [count_cons_int] at hcount
  unfold Unp.discard closef
  split
  case isTrue hlocal =>
    refine ⟨h.externalizeFp.1, h.externalizeFp.2, fun g => ?_⟩
    dsimp only
    rw [externalizeFp_fcount, externalizeFp_others, externalizeFp_defers, count_cons_int]
    have := hcount g
    omega
  case isFalse hlocal =>
  refine ⟨h.externalizeFp.1, h.externalizeFp.2, fun g => ?_⟩
  dsimp only
  rw [externalizeFp_fcount, externalizeFp_others, externalizeFp_defers]
  have := hcount g
  by_cases hg : g = fp
  · rw [hg, if_pos rfl] at this
    rw [hg, update_self]
    omega
  rw [if_neg hg] at this
  rw [update_of_ne hg]
  omega

/-- The loop over the descriptors of a message that is thrown away. -/
theorem Balanced.freerights :
    ∀ (fps : List Nat) (s : State) (L : List Nat), Balanced files s (fps ++ L) →
      Balanced files (Unp.freerights files s fps) L := by
  intro fps
  induction fps with
  | nil => intro s L h; exact h
  | cons fp fps ih => intro s L h; exact ih _ _ h.discard

theorem install_same (files : Files) (s : State) (fp : Nat) : SameQueues s (install files s fp) :=
  ⟨(externalizeFp_same files s fp).queued, (externalizeFp_same files s fp).socks⟩

theorem Balanced.install_fp {fp : Nat} (h : Balanced files s (fp :: L)) :
    Balanced files (Unp.install files s fp) L := by
  refine ⟨h.externalizeFp.1, h.externalizeFp.2, fun g => ?_⟩
  dsimp only [Unp.install]
  rw [externalizeFp_fcount, externalizeFp_defers]
  have := h.fcount g
  rw [count_cons_int] at this
  by_cases hg : g = fp
  · rw [hg, if_pos rfl] at this
    rw [hg, update_self]
    omega
  rw [if_neg hg] at this
  rw [update_of_ne hg]
  omega

/-- The loop over the descriptors of a message that is received. -/
theorem Balanced.install :
    ∀ (fps : List Nat) (s : State) (L : List Nat), Balanced files s (fps ++ L) →
      Balanced files (fps.foldl (Unp.install files) s) L := by
  intro fps
  induction fps with
  | nil => intro s L h; exact h
  | cons fp fps ih => intro s L h; exact ih _ _ h.install_fp

/-- The task that closes what was deferred. -/
theorem Balanced.processDefers :
    ∀ (fps : List Nat) (s : State), Balanced files { s with defers := fps } L →
      Balanced files { fps.foldl closef s with defers := [] } L := by
  intro fps
  induction fps with
  | nil => intro s h; exact h
  | cons fp fps ih =>
    intro s h
    refine ih (closef s fp) ⟨h.rights, h.msgcount, fun g => ?_⟩
    have := h.fcount g
    simp only [count_cons_int] at this
    dsimp only [closef] at this ⊢
    by_cases hg : g = fp
    · rw [hg, if_pos rfl] at this
      rw [hg, update_self]
      omega
    rw [if_neg hg] at this
    rw [update_of_ne hg]
    omega

@[simp] theorem fileptrs_rights (fdep : List Nat) (c : List Mbuf) :
    fileptrs (.rights fdep :: c) = fdep ++ fileptrs c := rfl

@[simp] theorem fileptrs_other (type : Nat) (c : List Mbuf) :
    fileptrs (.other type :: c) = fileptrs c := rfl

theorem fileptrs_append (c c' : List Mbuf) : fileptrs (c ++ c') = fileptrs c ++ fileptrs c' :=
  List.flatMap_append

/-- Credentials come and go without file pointers. -/
theorem fileptrs_addsockcred (alloc : Bool) (c : List Mbuf) :
    fileptrs (addsockcred alloc c) = fileptrs c := by
  unfold addsockcred
  cases alloc with
  | false => rfl
  | true =>
    rw [if_pos rfl, fileptrs_other]
    induction c with
    | nil => rfl
    | cons m c ih =>
      cases m with
      | rights fdep =>
        rw [List.filter_cons_of_pos (by simp), fileptrs_rights, fileptrs_rights, ih]
      | other type =>
        by_cases ht : type = scmCreds
        · rw [List.filter_cons_of_neg (by simp [ht]), fileptrs_other, ih]
        · rw [List.filter_cons_of_pos (by simp [ht]), fileptrs_other, fileptrs_other, ih]

/-- Every walk that is longer than the buffer is the whole walk. -/
theorem walk_eq_of_length_lt :
    ∀ (n m : Nat) (b : List (BitVec 8)), b.length < n → b.length < m → walk n b = walk m b := by
  intro n
  induction n with
  | zero => intro m b hn _; omega
  | succ n ih =>
    intro m b hn hm
    cases m with
    | zero => omega
    | succ m =>
      simp only [walk]
      split
      case isTrue hbad => rfl
      case isFalse hgood =>
      congr 1
      split
      case isTrue hmore =>
        -- A message takes sixteen bytes at least.
        have hspace : 16 ≤ cmsgSpace ((word b 0 + 2 ^ 32 - align cmsghdrSize) % 2 ^ 32) := by
          simp only [cmsgSpace, align, cmsghdrSize]
          omega
        refine ih m _ ?_ ?_
        · rw [List.length_drop]
          omega
        · rw [List.length_drop]
          omega
      case isFalse hlast => rfl

end FreeBSDKern.Unp
