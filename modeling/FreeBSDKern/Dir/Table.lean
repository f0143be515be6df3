import FreeBSDKern.Dir.Stats

/-!
# The Table of a Directory Hash

The invariant of a hash: its table holds the offsets of the names, each once and where a
search for its name finds it, the slots in use are counted, one of them is empty, and the
free space is known. Every operation keeps it, or does away with the hash, and none of
them panics or runs around the table for ever.

## Main definitions

* `Hashed`: The invariant of a hash.
* `IDirhash.Ok`: The invariant, if there is a hash.

## Theorems

* `add_ok`, `remove_ok`, `move_ok`, `newblk_ok`, `dirtrunc_ok`: The operations.
-/

namespace FreeBSDKern.Dir

open Lib Function

/-- The first slot for the name at an offset. -/
def homes (dh : Dirhash) (live : Nat → Option Name) (o : Nat) : Option Nat := (live o).map dh.hash

/-- The invariant of a hash. -/
structure Hashed (L : Listing) (dh : Dirhash) : Prop where
  holds : Holds dh.dhHlen dh.dhHash (homes dh L.live)
  hused : dh.dhHused = occupied dh.dhHlen dh.dhHash
  room : dh.dhHused < dh.dhHlen
  stats : Stats L dh

/-- The invariant, if there is a hash. -/
def IDirhash.Ok (L : Listing) : IDirhash → Prop
  | .hashed dh => Hashed L dh
  | .recycled _ => True
  | .null => True

section Adjfree

variable (dh : Dirhash) (o : Nat) (d : Int)

@[simp] theorem adjfree_dhHash : (adjfree dh o d).dhHash = dh.dhHash := by
  unfold adjfree
  dsimp only
  split <;> rfl

@[simp] theorem adjfree_dhHlen : (adjfree dh o d).dhHlen = dh.dhHlen := by
  unfold adjfree
  dsimp only
  split <;> rfl

@[simp] theorem adjfree_dhHused : (adjfree dh o d).dhHused = dh.dhHused := by
  unfold adjfree
  dsimp only
  split <;> rfl

@[simp] theorem adjfree_self : (adjfree dh o d).self = dh.self := by
  unfold adjfree
  dsimp only
  split <;> rfl

@[simp] theorem adjfree_hash : (adjfree dh o d).hash = dh.hash := by
  funext n
  rw [Dirhash.hash, Dirhash.hash, adjfree_self, adjfree_dhHlen]

end Adjfree

variable {L : Listing} {dh : Dirhash}

theorem hash_lt (hroom : dh.dhHused < dh.dhHlen) (n : Name) : dh.hash n < dh.dhHlen :=
  Nat.mod_lt _ (by omega)

theorem homes_update (live : Nat → Option Name) (o : Nat) (v : Option Name) :
    homes dh (update live o v) = update (homes dh live) o (v.map dh.hash) := by
  funext p
  by_cases hp : p = o
  · rw [hp, homes, update_self, update_self]
  · rw [homes, update_of_ne hp, update_of_ne hp]
    rfl

theorem homes_none {o : Nat} (h : L.live o = none) : homes dh L.live o = none := by
  rw [homes, h]
  rfl

theorem homes_some {o : Nat} {n : Name} (h : L.live o = some n) :
    homes dh L.live o = some (dh.hash n) := by
  rw [homes, h]
  rfl

/-- The statistics do not look at the table. -/
theorem Stats.frame {dh' : Dirhash} (hs : Stats L dh) (h1 : dh'.dhBlkfree = dh.dhBlkfree)
    (h2 : dh'.dhNblk = dh.dhNblk) (h3 : dh'.dhDirblks = dh.dhDirblks)
    (h4 : dh'.dhFirstfree = dh.dhFirstfree) : Stats L dh' := by
  refine ⟨h3.trans hs.blks, ?_, ?_, ?_⟩
  · rw [h3, h2]
    exact hs.nblk
  · rw [h3, h1]
    exact hs.free
  · rw [h3, h1, h4]
    exact hs.first

/-- The table does not look at the statistics. -/
theorem Hashed.of_stats {dh' : Dirhash} {k : Nat} (h : Hashed L dh) (hs : Stats ⟨k, L.live⟩ dh')
    (h1 : dh'.self = dh.self) (h2 : dh'.dhHash = dh.dhHash) (h3 : dh'.dhHlen = dh.dhHlen)
    (h4 : dh'.dhHused = dh.dhHused) : Hashed ⟨k, L.live⟩ dh' := by
  have hhash : dh'.hash = dh.hash := by
    funext n
    rw [Dirhash.hash, Dirhash.hash, h1, h3]
  have hhomes : homes dh' L.live = homes dh L.live := by
    funext o
    rw [homes, homes, hhash]
  refine ⟨?_, ?_, ?_, hs⟩
  · rw [h2, h3, hhomes]
    exact h.holds
  · rw [h2, h3, h4]
    exact h.hused
  · rw [h3, h4]
    exact h.room

/-- A name is put in a slot that its search reaches. -/
theorem putslot_ok (h : Hashed L dh) {o slot : Nat} {n : Name} (ho : L.live o = none)
    (hslot : slot < dh.dhHlen) (hreach : Reach dh.dhHlen dh.dhHash (dh.hash n) slot)
    (hfree : ∀ b, dh.dhHash slot ≠ .used b) : Holds dh.dhHlen (putslot dh slot o).dhHash
        (homes dh (update L.live o (some n))) ∧
      (putslot dh slot o).dhHused = occupied dh.dhHlen (putslot dh slot o).dhHash ∧
      (putslot dh slot o).dhHused ≤ dh.dhHused + 1 := by
  refine ⟨?_, ?_, ?_⟩
  · rw [homes_update]
    exact h.holds.insert (homes_none ho) (hash_lt h.room n) hslot hreach hfree
  · have hcount := occupied_update (t := dh.dhHash) (.used o) hslot
    have hused := h.hused
    simp only [putslot]
    split
    case isTrue hempty =>
      rw [hempty] at hcount
      simp only [Slot.weight] at hcount
      omega
    case isFalse hne =>
    have hone : (dh.dhHash slot).weight = 1 := by
      have hle := weight_le_one (dh.dhHash slot)
      have hnz : (dh.dhHash slot).weight ≠ 0 := fun hz => hne (weight_eq_zero.mp hz)
      omega
    simp only [Slot.weight] at hcount hone
    omega
  · simp only [putslot]
    split <;> omega

theorem div_lt_of_live (hL : L.Ok) {o : Nat} {n : Name} (h : L.live o = some n) :
    o / dirblksiz < L.dirblks :=
  Nat.div_lt_of_lt_mul (hL.bound h)

/-- A name is put in a slot, and the free space is adjusted. -/
theorem putslot_adjfree (h : Hashed L dh) {o slot : Nat} {n : Name} (ho : L.live o = none)
    (hL : Listing.Ok ⟨L.dirblks, update L.live o (some n)⟩)
    (hslot : slot < dh.dhHlen) (hreach : Reach dh.dhHlen dh.dhHash (dh.hash n) slot)
    (hfree : ∀ b, dh.dhHash slot ≠ .used b) (hroom : dh.dhHused + 1 < dh.dhHlen) :
    Hashed ⟨L.dirblks, update L.live o (some n)⟩
      (adjfree (putslot dh slot o) o (-directsiz n.length)) := by
  rcases putslot_ok h ho hslot hreach hfree with ⟨hholds, hused, hle⟩
  have hstats : Stats L (putslot dh slot o) := h.stats.frame rfl rfl rfl rfl
  have hself : update L.live o (some n) o = some n := update_self _ _ _
  have hblock : o / dirblksiz < (putslot dh slot o).dhDirblks := by
    rw [hstats.blks]
    exact div_lt_of_live hL hself
  refine ⟨?_, ?_, ?_, ?_⟩
  · rw [adjfree_dhHlen, adjfree_dhHash]
    have hhomes : homes (adjfree (putslot dh slot o) o (-directsiz n.length)) = homes dh := by
      funext live p
      rw [homes, homes, adjfree_hash]
      rfl
    rw [hhomes]
    exact hholds
  · rw [adjfree_dhHused, adjfree_dhHash, adjfree_dhHlen]
    exact hused
  · rw [adjfree_dhHused, adjfree_dhHlen]
    show (putslot dh slot o).dhHused < dh.dhHlen
    omega
  refine hstats.adjfree hblock (hL.room _) ?_
  rw [ho]
  simp only [cost]
  omega

/-- Adding a name. -/
theorem add_ok (h : Hashed L dh) {o : Nat} {n : Name} (ho : L.live o = none)
    (hL : Listing.Ok ⟨L.dirblks, update L.live o (some n)⟩) :
    ∃ h', add dh n o = some h' ∧ h'.Ok ⟨L.dirblks, update L.live o (some n)⟩ := by
  unfold add
  split
  case isTrue => exact ⟨.null, rfl, trivial⟩
  case isFalse hfull =>
  -- There is an empty slot, so the search ends.
  rcases exists_empty (by rw [← h.hused]; exact h.room) with ⟨j, hj, hempty⟩
  have hstop : decide (dh.dhHash j = .empty ∨ dh.dhHash j = .del) = true :=
    decide_eq_true (.inl hempty)
  rcases seek_spec (t := dh.dhHash) (fun v => v = .empty ∨ v = .del) (hash_lt h.room n) hj
    hstop with ⟨e, he, hseek, hat, hbefore⟩
  refine ⟨_, by rw [hseek]; rfl, ?_⟩
  refine putslot_adjfree h ho hL (Nat.mod_lt _ (by omega)) ?_ ?_ (by omega)
  · exact reach_of_seek (fun v => v = .empty ∨ v = .del) (decide_eq_true (.inl rfl)) he hbefore
  intro b hb
  rw [hb] at hat
  exact absurd (of_decide_eq_true hat) (by simp only [reduceCtorEq, or_self, not_false_eq_true])

/-- The slot of a name at its offset. -/
theorem findslot_ok (h : Hashed L dh) {o : Nat} {n : Name} (ho : L.live o = some n) :
    ∃ slot < dh.dhHlen, findslot dh n o = some slot ∧ dh.dhHash slot = .used o := by
  rcases h.holds.find (homes_some ho) with ⟨slot, hslot, hseek, hused⟩
  refine ⟨slot, hslot, ?_, hused⟩
  rw [findslot, hseek]
  simp only [Option.filter_some, hused, decide_true, if_true]

/-- The table after a slot has been emptied and cleaned. -/
theorem delslot_ok (h : Hashed L dh) {o slot : Nat} (hslot : slot < dh.dhHlen)
    (hused : dh.dhHash slot = .used o) : ∃ dh', delslot dh slot = some dh' ∧
      Holds dh'.dhHlen dh'.dhHash (homes dh' (update L.live o none)) ∧
      dh'.dhHused = occupied dh'.dhHlen dh'.dhHash ∧ dh'.dhHused < dh'.dhHlen ∧ Stats L dh' := by
  have hcount := occupied_update (t := dh.dhHash) .del hslot
  rw [hused] at hcount
  simp only [Slot.weight, Nat.add_right_cancel_iff] at hcount
  have hholds : Holds dh.dhHlen (update dh.dhHash slot .del)
      (homes dh (update L.live o none)) := by
    rw [homes_update]
    exact h.holds.delete hslot hused
  have hroom : occupied dh.dhHlen (update dh.dhHash slot .del) < dh.dhHlen := by
    rw [hcount, ← h.hused]
    exact h.room
  -- An empty slot ends the run of deleted ones.
  rcases exists_empty hroom with ⟨j, hj, hempty⟩
  have hstop : decide (update dh.dhHash slot .del j ≠ .del) = true := by
    rw [hempty]
    decide
  rcases seek_spec (t := update dh.dhHash slot .del) (fun v => v ≠ .del) hslot hj hstop with
    ⟨e, he, hseek, -, -⟩
  unfold delslot
  dsimp only
  rw [hseek]
  dsimp only
  have hi : (slot + e) % dh.dhHlen < dh.dhHlen := Nat.mod_lt _ (by omega)
  generalize (slot + e) % dh.dhHlen = i at hi
  split
  case isFalse =>
    refine ⟨_, rfl, hholds, ?_, h.room, h.stats.frame rfl rfl rfl rfl⟩
    rw [hcount]
    exact h.hused
  case isTrue hend =>
  have hnext : update dh.dhHash slot .del
      (wrapIncr (wrapDecr i dh.dhHlen) dh.dhHlen) = .empty := by
    rw [wrapIncr_wrapDecr hi]
    exact hend
  rcases hholds.clean (h.hused.trans hcount.symm) (wrapDecr_lt hi) hnext (marks_lt hi hend) with
    ⟨t', c', hclean, hholds', hc', hle⟩
  rw [hclean]
  refine ⟨_, rfl, hholds', hc', ?_, h.stats.frame rfl rfl rfl rfl⟩
  exact lt_of_le_of_lt hle h.room

/-- Removing a name. -/
theorem remove_ok (h : Hashed L dh) {o : Nat} {n : Name} (ho : L.live o = some n) (hL : L.Ok) :
    ∃ h', remove dh n o = some h' ∧ h'.Ok ⟨L.dirblks, update L.live o none⟩ := by
  rcases findslot_ok h ho with ⟨slot, hslot, hfind, hused⟩
  rcases delslot_ok h hslot hused with ⟨dh', hdel, hholds, hcount, hroom, hstats⟩
  refine ⟨.hashed (adjfree dh' o (directsiz n.length)),
    by rw [remove, hfind, Option.bind_some, hdel]; rfl, ?_⟩
  refine ⟨?_, ?_, ?_, ?_⟩
  · have hhomes : homes (adjfree dh' o (directsiz n.length)) = homes dh' := by
      funext live p
      rw [homes, homes, adjfree_hash]
    rw [adjfree_dhHlen, adjfree_dhHash, hhomes]
    exact hholds
  · rw [adjfree_dhHused, adjfree_dhHash, adjfree_dhHlen]
    exact hcount
  · rw [adjfree_dhHused, adjfree_dhHlen]
    exact hroom
  refine hstats.adjfree ?_ ?_ ?_
  · rw [hstats.blks]
    exact div_lt_of_live hL ho
  · have hupdate := blockUse_update L.live o none
    have hle := hL.room (o / dirblksiz)
    simp only [cost] at hupdate
    omega
  rw [ho]
  simp only [cost]
  omega

/-- The bytes needed do not change when a name moves in its block. -/
theorem blockUse_move {live : Nat → Option Name} {o o' : Nat} {n : Name} (ho : live o = some n)
    (ho' : o' ≠ o → live o' = none) (hblock : o' / dirblksiz = o / dirblksiz) (b : Nat) :
    blockUse (update (update live o none) o' (some n)) b = blockUse live b := by
  have hnone : update live o none o' = none := by
    by_cases heq : o' = o
    · rw [heq, update_self]
    · rw [update_of_ne heq]
      exact ho' heq
  by_cases hb : b = o / dirblksiz
  · have h1 := blockUse_update live o none
    have h2 := blockUse_update (update live o none) o' (some n)
    rw [hnone, hblock] at h2
    rw [ho] at h1
    simp only [cost] at h1 h2
    rw [hb]
    omega
  · rw [blockUse_update_of_ne _ _ (by rw [hblock]; exact hb), blockUse_update_of_ne _ _ hb]

/-- Moving a name in its block. -/
theorem move_ok (h : Hashed L dh) {o o' : Nat} {n : Name} (ho : L.live o = some n)
    (ho' : o' ≠ o → L.live o' = none) (hblock : o' / dirblksiz = o / dirblksiz) :
    ∃ h', move dh n o o' = some h' ∧
      h'.Ok ⟨L.dirblks, update (update L.live o none) o' (some n)⟩ := by
  rcases findslot_ok h ho with ⟨slot, hslot, hfind, hused⟩
  have hcount := occupied_update (t := dh.dhHash) (.used o') hslot
  rw [hused] at hcount
  simp only [Slot.weight, Nat.add_right_cancel_iff] at hcount
  rw [move, hfind]
  refine ⟨_, rfl, ⟨?_, ?_, h.room, ?_⟩⟩
  · have hnew := h.holds.replace (homes_some ho) (fun hne => homes_none (ho' hne)) hslot hused
    show Holds dh.dhHlen _ (homes dh _)
    rw [homes_update, homes_update]
    exact hnew
  · show dh.dhHused = occupied dh.dhHlen (update dh.dhHash slot (.used o'))
    rw [hcount]
    exact h.hused
  refine ⟨h.stats.blks, h.stats.nblk, fun b hb => ?_, h.stats.first⟩
  rw [blockUse_move ho ho' hblock]
  exact h.stats.free b hb

/-- The directory has grown by a block. -/
theorem newblk_ok (h : Hashed L dh) (hL : L.Ok) :
    ∃ h', newblk dh (dirblksiz * L.dirblks) = some h' ∧ h'.Ok ⟨L.dirblks + 1, L.live⟩ := by
  rcases h.stats.newblk hL with ⟨h', hnew, hor⟩
  refine ⟨h', hnew, ?_⟩
  rcases hor with rfl | ⟨dh', rfl, hstats, hself, hhash, hlen, hused⟩
  · trivial
  · exact h.of_stats hstats hself hhash hlen hused

/-- The directory has been truncated. -/
theorem dirtrunc_ok (h : Hashed L dh) {k : Nat} (hk : k ≤ L.dirblks)
    (hL : Listing.Ok ⟨k, L.live⟩) :
    ∃ h', dirtrunc dh (dirblksiz * k) = some h' ∧ h'.Ok ⟨k, L.live⟩ := by
  rcases h.stats.dirtrunc hk hL with ⟨h', htrunc, hor⟩
  refine ⟨h', htrunc, ?_⟩
  rcases hor with rfl | ⟨dh', rfl, hstats, hself, hhash, hlen, hused⟩
  · trivial
  · exact h.of_stats hstats hself hhash hlen hused

end FreeBSDKern.Dir
