import Mathlib

/-!
# The Loop Check of a Rename

A directory must not be moved below itself. `ufs_checkpath` walks from the target
directory up by the `..` entries, and fails if it meets the source. Each step asks
the name cache for the parent, then reads the directory, and gets a vnode of the
parent with `VFS_VGET`. The vnodes are locked and referenced, and the walk holds one
at a time.

What the walk meets on its way is given in advance: for each step a name cache hit, a
directory that is read and a vnode that can be had or not, an entry that is not there,
or an error of the disk. A vnode is known by its inode number. At the end `vp1` is
released if it is set, and `vp` if it is not the target. A step whose read fails does
not set `vp1`, so that it is what the step before has left there: the vnode the walk
stands on, or at the first step whatever the stack holds.

## Main definitions

* `Tree`: The directories.
* `ufsCheckpath`: The walk, and what it acquires and releases.
* `Keeps`: What is expected of it.
* `ReadFails`: The walk meets an error of the disk.

## Theorems

* `walk_spec`: What the walk does from a directory on.
* `ufsCheckpath_keeps_iff`: When the expectation is met.
-/

namespace FreeBSDKern.Ufs

/-- Directories by their inode numbers. The parent of the root is the root. -/
structure Tree where
  rootino : Nat
  parent : Nat → Nat
  depth : Nat → Nat
  depth_parent : ∀ i, i ≠ rootino → depth i = depth (parent i) + 1
  depth_root : depth rootino = 0

/-- `a` is a proper ancestor of `i`. -/
def Tree.Above (tree : Tree) (a i : Nat) : Prop :=
  ∃ n, 0 < n ∧ n ≤ tree.depth i ∧ tree.parent^[n] i = a

/-- A failed read or `VFS_VGET` has an error of its own. -/
inductive PathErrno where
  | ok | eexist | einval | enotdir | other (code : Nat)
  deriving DecidableEq

/-- What `ufs_dir_dd_ino` finds at a step: the parent in the name cache, with a
    reference; the number of the parent in the directory, and what `VFS_VGET` would
    answer for it; no `..` entry; an error. -/
inductive Found where
  | hit
  | read (vget : Option Nat)
  | notdir
  | error (code : Nat)

inductive Ref where
  | acquire (vnode : Nat)
  | release (vnode : Nat)

/-- What a call returns, and the references it has acquired and released; or a panic. -/
inductive Result where
  | panic
  | returns (error : PathErrno) (waitIno : Nat) (refs : List Ref)

/-- The end of `ufs_checkpath`. -/
def finish (tvp vp : Nat) (vp1 : Option Nat) (error : PathErrno) (waitIno : Nat) (refs : List Ref) :
    Result :=
  if error = .enotdir then .panic
  else
    .returns error waitIno
      (refs ++ (match vp1 with | some v => [.release v] | none => []) ++
        if vp ≠ tvp then [.release vp] else [])

/-- What a round of the loop comes to: an end, or the next directory. -/
inductive Turn where
  | stops (r : Result)
  | moves (vp : Nat) (refs : List Ref)

/-- A round of the loop with the number of the parent found. -/
def goOn (tree : Tree) (sourceIno parentIno tvp vp : Nat) (vp1 vget : Option Nat)
    (refs : List Ref) : Turn :=
  let ddIno := tree.parent vp
  let vput := if vp ≠ tvp then [.release vp] else []
  if ddIno = sourceIno then .stops (finish tvp vp vp1 .einval 0 refs)
  else if ddIno = tree.rootino then .stops (finish tvp vp vp1 .ok 0 refs)
  else if ddIno = parentIno then .stops (finish tvp vp vp1 .ok 0 refs)
  else
    match vp1, vget with
    | some v, _ => .moves v (refs ++ vput)
    | none, some code => .stops (finish tvp vp none (.other code) ddIno refs)
    | none, none => .moves ddIno (refs ++ [.acquire ddIno] ++ vput)

/-- The loop of `ufs_checkpath`, at most `fuel` rounds of it. -/
def walk (tree : Tree) (env : Nat → Found) (sourceIno parentIno tvp : Nat) :
    Nat → Nat → Nat → Option Nat → List Ref → Option Result
  | 0, _, _, _, _ => none
  | fuel + 1, k, vp, vp1, refs =>
    let turn : Turn := match env k with
      | .error code => .stops (finish tvp vp vp1 (.other code) 0 refs)
      | .notdir => .stops (finish tvp vp vp1 .enotdir 0 refs)
      | .hit => goOn tree sourceIno parentIno tvp vp (some (tree.parent vp)) none
          (refs ++ [.acquire (tree.parent vp)])
      | .read vget => goOn tree sourceIno parentIno tvp vp none vget refs
    match turn with
    | .stops r => some r
    | .moves vp refs => walk tree env sourceIno parentIno tvp fuel (k + 1) vp (some vp) refs

/-- `ufs_checkpath`; `junk` is what the variable `vp1` holds before it is set. -/
def ufsCheckpath (tree : Tree) (env : Nat → Found) (junk : Option Nat)
    (sourceIno parentIno target : Nat) : Option Result :=
  if target = sourceIno then some (.returns .eexist 0 [])
  else if target = parentIno then some (.returns .ok 0 [])
  else if target = tree.rootino then some (.returns .ok 0 [])
  else walk tree env sourceIno parentIno target (tree.depth target) 0 target junk []

/-- The references held after some more steps, if none is released that is not held. -/
def settle : List Nat → List Ref → Option (List Nat)
  | held, [] => some held
  | held, .acquire v :: refs => settle (v :: held) refs
  | held, .release v :: refs => if v ∈ held then settle (held.erase v) refs else none

/-- `EINVAL` only if the source is above the target, success only if it is not, and
    every reference acquired is released once and no other. -/
def Keeps (tree : Tree) (sourceIno target : Nat) : Result → Prop
  | .panic => True
  | .returns error _ refs =>
    (error = .einval → tree.Above sourceIno target) ∧
      (error = .ok → ¬ tree.Above sourceIno target) ∧ settle [] refs = some []

/-- The walk from directory `vp`, at step `k`, comes to an error of the disk. -/
inductive ReadFails (tree : Tree) (env : Nat → Found) (sourceIno parentIno : Nat) : Nat → Nat → Prop
  | here {k vp code : Nat} (h : env k = .error code) : ReadFails tree env sourceIno parentIno k vp
  | later {k vp : Nat} (h : env k = .hit ∨ env k = .read none)
      (hsource : tree.parent vp ≠ sourceIno) (hroot : tree.parent vp ≠ tree.rootino)
      (hparent : tree.parent vp ≠ parentIno)
      (hnext : ReadFails tree env sourceIno parentIno (k + 1) (tree.parent vp)) :
      ReadFails tree env sourceIno parentIno k vp

variable {tree : Tree} {env : Nat → Found} {sourceIno parentIno target : Nat}

/-! ## The tree -/

theorem Tree.depth_iterate (tree : Tree) (i : Nat) : ∀ n, n ≤ tree.depth i →
    tree.depth (tree.parent^[n] i) + n = tree.depth i := by
  intro n
  induction n with
  | zero => exact fun _ => rfl
  | succ n ih =>
    intro hn
    have hdepth := ih (Nat.le_of_succ_le hn)
    rw [Function.iterate_succ_apply']
    have hnot : tree.parent^[n] i ≠ tree.rootino := fun hroot => by
      rw [hroot, tree.depth_root] at hdepth
      omega
    have := tree.depth_parent _ hnot
    omega

theorem Tree.Above.depth_lt {a i : Nat} (h : tree.Above a i) : tree.depth a < tree.depth i := by
  rcases h with ⟨n, hpos, hle, rfl⟩
  have := tree.depth_iterate i n hle
  omega

/-- Above a directory is its parent, and what is above that. -/
theorem Tree.above_iff {a i : Nat} (hi : i ≠ tree.rootino) :
    tree.Above a i ↔ tree.parent i = a ∨ tree.Above a (tree.parent i) := by
  have hdepth := tree.depth_parent i hi
  constructor
  · rintro ⟨n, hpos, hle, rfl⟩
    rcases Nat.exists_eq_succ_of_ne_zero (Nat.ne_of_gt hpos) with ⟨m, rfl⟩
    rw [Nat.succ_eq_add_one, Function.iterate_succ_apply]
    by_cases hm : m = 0
    · rw [hm]
      exact Or.inl rfl
    · exact Or.inr ⟨m, Nat.pos_of_ne_zero hm, by omega, rfl⟩
  rintro (rfl | ⟨n, hpos, hle, rfl⟩)
  · exact ⟨1, Nat.one_pos, by omega, rfl⟩
  · exact ⟨n + 1, Nat.succ_pos n, by omega, Function.iterate_succ_apply _ _ _⟩

theorem Tree.not_above_root (a : Nat) : ¬ tree.Above a tree.rootino := by
  rintro ⟨n, hpos, hle, -⟩
  rw [tree.depth_root] at hle
  omega

theorem Tree.ne_parent {i : Nat} (hi : i ≠ tree.rootino) : tree.parent i ≠ i := by
  intro heq
  have := tree.depth_parent i hi
  rw [heq] at this
  omega

/-! ## The references -/

theorem settle_append (refs refs' : List Ref) : ∀ held,
    settle held (refs ++ refs') = (settle held refs).bind (fun held => settle held refs') := by
  induction refs with
  | nil => exact fun _ => rfl
  | cons r refs ih =>
    intro held
    cases r with
    | acquire v => exact ih (v :: held)
    | release v =>
      rw [List.cons_append, settle, settle]
      split
      · exact ih (held.erase v)
      · rfl

/-- What the walk holds when it stands on a directory. -/
def heldAt (tvp vp : Nat) : List Nat := if vp = tvp then [] else [vp]

/-- The directory is let go. -/
theorem settle_leave {tvp vp d : Nat} (hd : d ≠ vp) :
    settle (heldAt tvp vp) (if vp ≠ tvp then [.release vp] else []) = some [] ∧
      settle (d :: heldAt tvp vp) (if vp ≠ tvp then [.release vp] else []) = some [d] := by
  unfold heldAt
  by_cases hvp : vp = tvp
  · rw [if_pos hvp, if_neg (not_not_intro hvp)]
    exact ⟨rfl, rfl⟩
  rw [if_neg hvp, if_pos hvp]
  have herase : [d, vp].erase vp = [d] := by
    rw [List.erase_cons_tail (by simpa using hd), List.erase_cons_head]
  refine ⟨by simp [settle], ?_⟩
  rw [settle, if_pos (List.mem_cons_of_mem d List.mem_cons_self), herase]
  rfl

/-- An end of the walk that releases what is held. -/
theorem finish_keeps {tvp vp : Nat} {vp1 : Option Nat} {error : PathErrno} {waitIno : Nat}
    {refs : List Ref} (hrefs : settle [] refs = some (vp1.toList ++ heldAt tvp vp))
    (hvp1 : vp1 ≠ some vp) (heinval : error = .einval → tree.Above sourceIno tvp)
    (hok : error = .ok → ¬ tree.Above sourceIno tvp) :
    Keeps tree sourceIno tvp (finish tvp vp vp1 error waitIno refs) := by
  unfold finish
  split
  · trivial
  refine ⟨heinval, hok, ?_⟩
  rw [List.append_assoc, settle_append, hrefs, Option.bind_some]
  cases vp1 with
  | none => exact (settle_leave (Nat.succ_ne_self vp)).1
  | some d =>
    rw [settle_append, Option.toList_some, List.singleton_append, settle,
      if_pos List.mem_cons_self, List.erase_cons_head]
    exact (settle_leave (Nat.succ_ne_self vp)).1

/-- Nothing is acquired and nothing released. -/
theorem keeps_early {error : PathErrno} (heinval : error ≠ .einval)
    (hok : error = .ok → ¬ tree.Above sourceIno target) :
    Keeps tree sourceIno target (.returns error 0 []) :=
  ⟨fun he => absurd he heinval, hok, rfl⟩

/-! ## The walk -/

/-- A round that has found the parent stops well, or moves there. -/
theorem goOn_spec {vp : Nat} {vp1 : Option Nat} (vget : Option Nat) {refs : List Ref}
    (hparent : tree.Above parentIno sourceIno) (hroot : vp ≠ tree.rootino)
    (habove : tree.Above sourceIno target ↔ tree.Above sourceIno vp)
    (hvp1 : vp1 = none ∨ vp1 = some (tree.parent vp))
    (hrefs : settle [] refs = some (vp1.toList ++ heldAt target vp)) :
    (∃ r, goOn tree sourceIno parentIno target vp vp1 vget refs = .stops r ∧
      Keeps tree sourceIno target r ∧
      ((vp1 = none → vget = none) → tree.parent vp = sourceIno ∨ tree.parent vp = tree.rootino ∨
        tree.parent vp = parentIno)) ∨
    ∃ refs', goOn tree sourceIno parentIno target vp vp1 vget refs =
        .moves (tree.parent vp) refs' ∧ settle [] refs' = some [tree.parent vp] ∧
      (vp1 = none → vget = none) ∧ tree.parent vp ≠ sourceIno ∧ tree.parent vp ≠ tree.rootino ∧
      tree.parent vp ≠ parentIno := by
  rw [tree.above_iff hroot] at habove
  have hne := tree.ne_parent hroot
  have hvp : vp1 ≠ some vp := by
    rcases hvp1 with rfl | rfl
    · exact fun he => nomatch he
    · exact fun he => hne (Option.some.inj he)
  unfold goOn
  dsimp only
  split
  case isTrue hsource =>
    exact Or.inl ⟨_, rfl, finish_keeps hrefs hvp (fun _ => habove.mpr (Or.inl hsource))
      nofun, fun _ => Or.inl hsource⟩
  case isFalse hsource =>
  rw [or_iff_right hsource] at habove
  split
  case isTrue hstop =>
    rw [hstop] at habove
    exact Or.inl ⟨_, rfl, finish_keeps hrefs hvp nofun
      (fun _ h => tree.not_above_root sourceIno (habove.mp h)), fun _ => Or.inr (Or.inl hstop)⟩
  case isFalse hstop =>
  split
  case isTrue hfound =>
    rw [hfound] at habove
    exact Or.inl ⟨_, rfl, finish_keeps hrefs hvp nofun
      (fun _ h => Nat.lt_asymm hparent.depth_lt (habove.mp h).depth_lt),
      fun _ => Or.inr (Or.inr hfound)⟩
  case isFalse hfound =>
  split
  case h_1 v =>
    have hv := Option.some.inj (hvp1.resolve_left (Option.some_ne_none v))
    rw [hv] at hrefs ⊢
    refine Or.inr ⟨_, rfl, ?_, nofun, hsource, hstop, hfound⟩
    rw [settle_append, hrefs]
    exact (settle_leave hne).2
  case h_2 code =>
    exact Or.inl ⟨_, rfl, finish_keeps hrefs hvp nofun nofun,
      (fun h => nomatch h rfl)⟩
  case h_3 =>
    refine Or.inr ⟨_, rfl, ?_, fun _ => rfl, hsource, hstop, hfound⟩
    rw [settle_append, settle_append, hrefs]
    exact (settle_leave hne).2

/-- The walk ends, and meets the expectation unless it comes to an error of the disk.
    There it does so only at the first step, with nothing in `vp1`. -/
theorem walk_spec (env : Nat → Found) (hparent : tree.Above parentIno sourceIno) :
    ∀ (fuel k vp : Nat) (vp1 : Option Nat) (refs : List Ref), tree.depth vp ≤ fuel → vp ≠ tree.rootino →
    tree.depth vp ≤ tree.depth target → (vp ≠ target → vp1 = some vp) →
    (tree.Above sourceIno target ↔ tree.Above sourceIno vp) →
    settle [] refs = some (heldAt target vp) →
    ∃ r, walk tree env sourceIno parentIno target fuel k vp vp1 refs = some r ∧
      (Keeps tree sourceIno target r ↔ ¬ ReadFails tree env sourceIno parentIno k vp ∨
          vp = target ∧ vp1 = none ∧ ∃ code, env k = .error code) := by
  intro fuel
  induction fuel with
  | zero =>
    intro k vp vp1 refs hfuel hroot
    have := tree.depth_parent vp hroot
    omega
  | succ fuel ih =>
    intro k vp vp1 refs hfuel hroot hdepth hvp1 habove hrefs
    have hup := tree.depth_parent vp hroot
    -- With the parent found, the round stops well or the walk goes on from there.
    have hgo : ∀ (vp1' vget : Option Nat) (refs' : List Ref),
        (env k = .hit ∧ vp1' = some (tree.parent vp)) ∨ (env k = .read vget ∧ vp1' = none) →
        settle [] refs' = some (vp1'.toList ++ heldAt target vp) →
        ∃ r, (match goOn tree sourceIno parentIno target vp vp1' vget refs' with
            | .stops r => some r
            | .moves vp refs => walk tree env sourceIno parentIno target fuel (k + 1) vp (some vp)
                refs) = some r ∧
          (Keeps tree sourceIno target r ↔ ¬ ReadFails tree env sourceIno parentIno k vp ∨
              vp = target ∧ vp1 = none ∧ ∃ code, env k = .error code) := by
      intro vp1' vget refs' hfound hheld
      have herr : ∀ code, env k ≠ .error code := by
        rintro code hcode
        rcases hfound with ⟨henv, -⟩ | ⟨henv, -⟩
        · exact nomatch henv.symm.trans hcode
        · exact nomatch henv.symm.trans hcode
      rw [or_iff_left (fun h => h.2.2.elim herr)]
      rcases goOn_spec vget hparent hroot habove (hfound.elim (fun h => Or.inr h.2)
        (fun h => Or.inl h.2)) hheld with
        ⟨r, hgo, hkeeps, hstop⟩ | ⟨refs'', hgo, hheld', hvget, hsource, hroot', hparent'⟩
      · refine ⟨r, by rw [hgo], iff_of_true hkeeps (fun hfails => ?_)⟩
        cases hfails with
        | here hcode => exact herr _ hcode
        | later henv hsource hroot' hparent' _ =>
          have hvget : vp1' = none → vget = none := by
            rintro rfl
            have hread := (hfound.resolve_left (fun h => nomatch h.2)).1
            rcases henv with henv | henv
            · exact nomatch hread.symm.trans henv
            · exact Found.read.inj (hread.symm.trans henv)
          rcases hstop hvget with h | h | h
          · exact hsource h
          · exact hroot' h
          · exact hparent' h
      have htvp : tree.parent vp ≠ target := fun heq => by
        rw [heq] at hup
        omega
      have habove' : tree.Above sourceIno target ↔ tree.Above sourceIno (tree.parent vp) := by
        rw [habove, tree.above_iff hroot, or_iff_right hsource]
      rcases ih (k + 1) (tree.parent vp) (some (tree.parent vp)) refs'' (by omega) hroot'
        (by omega) (fun _ => rfl) habove' (by rw [hheld', heldAt, if_neg htvp]) with
        ⟨r, hr, hkeeps⟩
      refine ⟨r, by rw [hgo]; exact hr, hkeeps.trans ?_⟩
      rw [or_iff_left (fun h => htvp h.1), not_iff_not]
      refine ⟨fun h => .later ?_ hsource hroot' hparent' h, fun h => ?_⟩
      · rcases hfound with ⟨henv, -⟩ | ⟨henv, hnone⟩
        · exact Or.inl henv
        · exact Or.inr (henv.trans (congrArg Found.read (hvget hnone)))
      cases h with
      | here hcode => exact absurd hcode (herr _)
      | later _ _ _ _ hnext => exact hnext
    rcases hfound : env k with _ | vget | _ | code
    case hit =>
      have := hgo (some (tree.parent vp)) none (refs ++ [.acquire (tree.parent vp)])
        (Or.inl ⟨hfound, rfl⟩) (by rw [settle_append, hrefs]; rfl)
      simpa only [walk, hfound] using this
    case read =>
      have := hgo none vget refs (Or.inr ⟨hfound, rfl⟩) hrefs
      simpa only [walk, hfound] using this
    case notdir =>
      refine ⟨.panic, by simp only [walk, hfound]; rfl, iff_of_true trivial (Or.inl ?_)⟩
      rintro (hcode | ⟨h | h, -⟩)
      · exact nomatch hfound.symm.trans hcode
      · exact nomatch hfound.symm.trans h
      · exact nomatch hfound.symm.trans h
    case error =>
    refine ⟨finish target vp vp1 (.other code) 0 refs, by simp only [walk, hfound], ?_⟩
    rw [or_iff_right (not_not_intro (.here hfound))]
    by_cases hvp : vp = target
    · cases vp1 with
      | none => simp [finish, Keeps, hrefs, hvp, heldAt]
      | some v => simp [finish, Keeps, settle_append, hrefs, hvp, heldAt, settle]
    · -- The directory the walk stands on is released twice.
      simp [finish, Keeps, settle_append, hrefs, hvp, hvp1 hvp, heldAt, settle]

/-- The call returns or panics. Where the target is neither the source nor its parent
    nor the root, it meets the expectation if and only if the walk comes to no error
    of the disk, or does so at the first step and there is nothing in `vp1`. -/
theorem ufsCheckpath_keeps_iff (tree : Tree) (env : Nat → Found) (junk : Option Nat)
    (sourceIno parentIno target : Nat) (hparent : tree.Above parentIno sourceIno) :
    ∃ r, ufsCheckpath tree env junk sourceIno parentIno target = some r ∧
      (Keeps tree sourceIno target r ↔
        target = sourceIno ∨ target = parentIno ∨ target = tree.rootino ∨
          ¬ ReadFails tree env sourceIno parentIno 0 target ∨
          junk = none ∧ ∃ code, env 0 = .error code) := by
  unfold ufsCheckpath
  split
  case isTrue hsource =>
    exact ⟨_, rfl, iff_of_true (keeps_early nofun nofun)
      (Or.inl hsource)⟩
  case isFalse hsource =>
  split
  case isTrue hfound =>
    refine ⟨_, rfl, iff_of_true (keeps_early nofun (fun _ h => ?_))
      (Or.inr (Or.inl hfound))⟩
    rw [hfound] at h
    exact Nat.lt_asymm hparent.depth_lt h.depth_lt
  case isFalse hfound =>
  split
  case isTrue hroot =>
    refine ⟨_, rfl, iff_of_true (keeps_early nofun (fun _ h => ?_))
      (Or.inr (Or.inr (Or.inl hroot)))⟩
    rw [hroot] at h
    exact tree.not_above_root sourceIno h
  case isFalse hroot =>
  rcases walk_spec env hparent (tree.depth target) 0 target junk []
    le_rfl hroot le_rfl (fun h => absurd rfl h) Iff.rfl
    (by rw [heldAt, if_pos rfl]; rfl) with ⟨r, hr, hkeeps⟩
  refine ⟨r, hr, hkeeps.trans ?_⟩
  rw [or_iff_right hsource, or_iff_right hfound, or_iff_right hroot, eq_self_iff_true, true_and]

theorem ReadFails.error {k vp : Nat} (h : ReadFails tree env sourceIno parentIno k vp) :
    ∃ k code, env k = .error code := by
  induction h with
  | here h => exact ⟨_, _, h⟩
  | later _ _ _ _ _ ih => exact ih

/-- Each directory holds the next one. -/
def ladder : Tree where
  rootino := 2
  parent := fun i => if i ≤ 3 then 2 else i - 1
  depth := fun i => if i = 2 then 0 else if i ≤ 3 then 1 else i - 2
  depth_parent := by
    intro i hi
    grind
  depth_root := rfl

/-- With all parents in the name cache. -/
theorem checkpath_by_name_cache :
    ∃ r, ufsCheckpath ladder (fun _ => .hit) none 7 6 5 = some r ∧ Keeps ladder 7 5 r := by
  rcases ufsCheckpath_keeps_iff ladder (fun _ => .hit) none 7 6 5 ⟨1, by decide, by decide, rfl⟩
    with ⟨r, hr, hkeeps⟩
  refine ⟨r, hr, hkeeps.mpr (Or.inr (Or.inr (Or.inr (Or.inl (fun hfails => ?_)))))⟩
  rcases hfails.error with ⟨_, _, h⟩
  cases h

/-- The second directory cannot be read, and its vnode is released twice. -/
theorem checkpath_releases_twice :
    ¬ ∀ (tree : Tree) (env : Nat → Found) (junk : Option Nat) (sourceIno parentIno target : Nat),
      tree.Above parentIno sourceIno →
      ∃ r, ufsCheckpath tree env junk sourceIno parentIno target = some r ∧
        Keeps tree sourceIno target r := by
  intro h
  rcases h ladder (fun k => if k = 0 then .hit else .error 5) none 7 6 5
    ⟨1, by decide, by decide, rfl⟩ with ⟨r, hr, hkeeps⟩
  have hrun : ufsCheckpath ladder (fun k => if k = 0 then .hit else .error 5) none 7 6 5 =
      some (.returns (.other 5) 0 [.acquire 4, .release 4, .release 4]) := rfl
  rw [hrun, Option.some.injEq] at hr
  rw [← hr] at hkeeps
  cases hkeeps.2.2

end FreeBSDKern.Ufs
