import FreeBSDKern.Vmem.Intact

/-!
# The Contents of the Queue

What clipping a tag does to the queue, said of the tags themselves and not of their
numbers. The tag is replaced by the pieces it is cut into, and no other tag changes.

This is followed in words, whatever the address, since an address before the tag is
clipped as well. The pieces fill the tag only if the address is in it. Otherwise two of
them overlap: the one before the allocation is as long as the way around the address
space, and the tag itself still ends where it did.

## Main definitions

* `contents`: The tags of the queue.
* `clipped`: The pieces of a tag, in words.
* `pieces`: The same where the allocation lies in the tag.
* `Converted`: A range of a free tag became a busy tag.
* `Untangled`: No two tags overlap, spans aside.

## Theorems

* `vmemClip_contents`: The tag is replaced by its pieces.
* `clipped_inside`, `clipped_before`: What these are.
* `Converted.untangled`: A conversion makes no tags overlap.
-/

namespace FreeBSDKern.Vmem

open Lib Function

/-- The tags of the queue. -/
def contents (vm : Arena) : List Bt := vm.seglist.map vm.tag

/-- The piece before an allocation, and the rest of the tag. -/
def frontPieces (b : Bt) (start : Nat) : List Bt :=
  if b.start ≠ start then [⟨b.start, wsub start b.start, .free⟩] else []

def frontRest (b : Bt) (start : Nat) : Bt :=
  if b.start ≠ start then { b with start := start, size := wsub b.size (wsub start b.start) } else b

/-- The allocation, and what is behind it. -/
def backPieces (b : Bt) (size mask : Nat) : List Bt :=
  if b.size ≠ size ∧ wsub b.size size > mask then
    [⟨b.start, size, .busy⟩, { b with start := wadd b.start size, size := wsub b.size size }]
  else [{ b with type := .busy }]

/-- The pieces of a tag. -/
def clipped (b : Bt) (start size mask : Nat) : List Bt :=
  frontPieces b start ++ backPieces (frontRest b start) size mask

/-- The pieces of a tag that the allocation lies in. -/
def pieces (b : Bt) (start size : Nat) : List Bt :=
  (if b.start < start then [⟨b.start, start - b.start, .free⟩] else []) ++
    ⟨start, size, .busy⟩ :: if start + size < b.start + b.size then
        [⟨start + size, b.start + b.size - (start + size), .free⟩]
      else []

/-- A range of a free tag became a busy tag. The rest of the tag is free, and no other
    tag changed. -/
def Converted (vm vm' : Arena) (start size : Nat) : Prop :=
  ∃ pre b post, contents vm = pre ++ b :: post ∧ b.type = .free ∧ b.start ≤ start ∧
    start + size ≤ b.start + b.size ∧ contents vm' = pre ++ pieces b start size ++ post

/-- No two tags overlap, spans aside. -/
def Untangled (cs : List Bt) : Prop :=
  cs.Pairwise (fun a b => isSpan a = true ∨ isSpan b = true ∨ Disjoint a b)

section clip

/-- The place of a tag in the queue. -/
structure At (vm : Arena) (pre : List Nat) (bt : Nat) (post : List Nat) : Prop where
  seglist : vm.seglist = pre ++ bt :: post
  nodup : vm.seglist.Nodup
  fresh : ∀ t ∈ vm.seglist, t < vm.nextTag
  front : pre ≠ []

variable {vm : Arena} {pre post : List Nat} {bt : Nat}

section

variable (h : At vm pre bt post)
include h

theorem At.notMem : bt ∉ pre ∧ bt ∉ post := by
  have hnodup := h.nodup
  rw [h.seglist] at hnodup
  exact ⟨notMem_front hnodup, (List.nodup_cons.mp (List.nodup_append.mp hnodup).2.1).1⟩

theorem At.mem {t : Nat} (ht : t ∈ pre ∨ t = bt ∨ t ∈ post) :
    t ∈ vm.seglist := by
  rw [h.seglist, List.mem_append, List.mem_cons]
  exact ht

-- A new tag is put before the one that is clipped, and both are written.
theorem At.insert (vm' : Arena) {bx bb : Bt}
    (htag : vm'.tag = update (update vm.tag vm.nextTag bx) bt bb)
    (hseg : vm'.seglist = pre ++ vm.nextTag :: bt :: post) (hnext : vm'.nextTag = vm.nextTag + 1) :
    At vm' (pre ++ [vm.nextTag]) bt post ∧ vm'.tag vm.nextTag = bx ∧ vm'.tag bt = bb ∧
      pre.map vm'.tag = pre.map vm.tag ∧ post.map vm'.tag = post.map vm.tag := by
  rcases h.notMem with ⟨hpre, hpost⟩
  have hfresh : ∀ t, (t ∈ pre ∨ t = bt ∨ t ∈ post) → t ≠ vm.nextTag := fun t ht =>
    ne_of_lt (h.fresh t (h.mem ht))
  have hbt := hfresh bt (Or.inr (Or.inl rfl))
  have hother : ∀ t, t ≠ bt → (t ∈ pre ∨ t = bt ∨ t ∈ post) → vm'.tag t = vm.tag t := by
    intro t hne ht
    rw [htag, update_of_ne hne, update_of_ne (hfresh t ht)]
  have hnodup := h.nodup
  rw [h.seglist] at hnodup
  refine ⟨⟨?_, ?_, fun t ht => ?_, ?_⟩, ?_, ?_, ?_, ?_⟩
  · rw [hseg, List.append_assoc, List.singleton_append]
  · rw [hseg, List.nodup_middle]
    refine List.nodup_cons.mpr ⟨fun hin => ?_, hnodup⟩
    rw [List.mem_append, List.mem_cons] at hin
    exact hfresh _ hin rfl
  · rw [hnext]
    rw [hseg, List.mem_append, List.mem_cons, List.mem_cons] at ht
    rcases ht with ht | rfl | ht
    · exact Nat.lt_succ_of_lt (h.fresh t (h.mem (Or.inl ht)))
    · exact Nat.lt_succ_self _
    · exact Nat.lt_succ_of_lt (h.fresh t (h.mem (Or.inr ht)))
  · exact List.append_ne_nil_of_left_ne_nil h.front _
  · rw [htag, update_of_ne (Ne.symm hbt), update_self]
  · rw [htag, update_self]
  · exact List.map_congr_left (fun t ht => hother t (fun heq => hpre (heq ▸ ht)) (Or.inl ht))
  · exact List.map_congr_left (fun t ht =>
      hother t (fun heq => hpost (heq ▸ ht)) (Or.inr (Or.inr ht)))

/-- The way to insert a tag before another. -/
theorem At.prev : ∃ p, prev? vm.seglist bt = some p ∧
    ∀ x, insertAfter vm.seglist p x = pre ++ x :: bt :: post := by
  have hnodup := h.nodup
  rw [h.seglist] at hnodup
  rcases insert_before h.front hnodup with ⟨p, -, hprev, hins⟩
  rw [h.seglist]
  exact ⟨p, hprev, hins⟩

theorem clipFront_contents (start : Nat) :
    ∃ vm' pre', clipFront vm bt start = some vm' ∧ At vm' pre' bt post ∧
      vm'.quantumMask = vm.quantumMask ∧ vm'.tag bt = frontRest (vm.tag bt) start ∧
      pre'.map vm'.tag = pre.map vm.tag ++ frontPieces (vm.tag bt) start ∧
      post.map vm'.tag = post.map vm.tag := by
  unfold clipFront frontRest frontPieces
  by_cases hsame : (vm.tag bt).start = start
  · simp only [hsame, ne_eq, not_true_eq_false, if_false, List.append_nil]
    exact ⟨vm, pre, rfl, h, rfl, rfl, rfl, rfl⟩
  rcases h.prev with ⟨p, hprev, hins⟩
  have hne : (vm.tag bt).start ≠ start := hsame
  simp only [if_pos hne]
  -- Neither the list of free tags nor the new tag matters to the tag before.
  have hprev' : ∀ bx bb, prev? (btInsfree (setTag (btAlloc vm bx) bt bb) vm.nextTag).seglist bt =
      some p := fun _ _ => hprev
  rw [hprev']
  rcases h.insert (btInsseg (btInsfree (setTag (btAlloc vm
      ⟨(vm.tag bt).start, wsub start (vm.tag bt).start, .free⟩) bt
      { vm.tag bt with
        start := start, size := wsub (vm.tag bt).size (wsub start (vm.tag bt).start) })
      vm.nextTag) vm.nextTag p) rfl (hins vm.nextTag) rfl with ⟨hat, hx, hb, hpre, hpost⟩
  refine ⟨_, pre ++ [vm.nextTag], rfl, hat, rfl, hb, ?_, hpost⟩
  rw [List.map_append, hpre, List.map_singleton, hx]

theorem clipBack_contents (size : Nat) :
    ∃ vm', clipBack vm bt size = some vm' ∧ contents vm' = pre.map vm.tag ++
      backPieces (vm.tag bt) size vm.quantumMask ++ post.map vm.tag := by
  unfold clipBack backPieces contents
  by_cases hsplit : (vm.tag bt).size ≠ size ∧ wsub (vm.tag bt).size size > vm.quantumMask
  · rcases h.prev with ⟨p, hprev, hins⟩
    simp only [if_pos hsplit]
    have hprev' : ∀ bx bb, prev? (btInsfree (setTag (btAlloc vm bx) bt bb) bt).seglist bt =
        some p := fun _ _ => hprev
    rw [hprev']
    rcases h.insert (btInsbusy (btInsseg (btInsfree (setTag (btAlloc vm
        ⟨(vm.tag bt).start, size, .busy⟩) bt
        { vm.tag bt with
          start := wadd (vm.tag bt).start size, size := wsub (vm.tag bt).size size })
        bt) vm.nextTag p) vm.nextTag) rfl (hins vm.nextTag) rfl with ⟨hat, hx, hb, hpre, hpost⟩
    refine ⟨_, rfl, ?_⟩
    rw [hat.seglist]
    simp only [List.map_append, List.map_cons, hpre, hpost, hx, hb, List.append_assoc,
      List.cons_append, List.nil_append]
  simp only [if_neg hsplit]
  rcases h.notMem with ⟨hpre, hpost⟩
  refine ⟨_, rfl, ?_⟩
  change vm.seglist.map (update vm.tag bt { vm.tag bt with type := .busy }) = _
  rw [h.seglist, List.map_append, List.map_cons, update_self, List.append_assoc,
    List.singleton_append]
  have hother : ∀ ts : List Nat, bt ∉ ts → ts.map (update vm.tag bt
      { vm.tag bt with type := .busy }) = ts.map vm.tag := by
    intro ts hnot
    refine List.map_congr_left (fun t ht => update_of_ne ?_ _ _)
    rintro rfl
    exact hnot ht
  rw [hother pre hpre, hother post hpost]

theorem vmemClip_contents (start size : Nat) :
    ∃ vm', vmemClip vm bt start size = some vm' ∧ contents vm' = pre.map vm.tag ++
      clipped (vm.tag bt) start size vm.quantumMask ++ post.map vm.tag := by
  have hwork : At (btRemfree vm bt) pre bt post := ⟨h.seglist, h.nodup, h.fresh, h.front⟩
  rcases clipFront_contents hwork start with ⟨vm₁, pre₁, hfront, hat, hmask, htag, hpre, hpost⟩
  rcases clipBack_contents hat size with ⟨vm₂, hback, hcont⟩
  refine ⟨vm₂, ?_, ?_⟩
  · rw [vmemClip, hfront]
    exact hback
  rw [hcont, htag, hmask, hpre, hpost, clipped]
  simp only [List.append_assoc]
  rfl

end

end clip

section pieces

variable {b : Bt} {start size mask : Nat}

/-- Where the allocation lies in the tag. What is left of a tag in quanta is nothing, or
    at least a quantum. -/
theorem clipped_inside (hfree : b.type = .free) (hword : b.size < 2 ^ 64)
    (hend : b.start + b.size ≤ 2 ^ 64) (hlo : b.start ≤ start)
    (hhi : start + size ≤ b.start + b.size) (hpos : 0 < size)
    (hq : mask + 1 ∣ b.start + b.size - (start + size)) :
    clipped b start size mask = pieces b start size := by
  have hfront : frontPieces b start =
      if b.start < start then [⟨b.start, start - b.start, .free⟩] else [] := by
    unfold frontPieces
    by_cases hsame : b.start = start
    · rw [if_neg (not_not.mpr hsame), if_neg (by omega)]
    · rw [if_pos hsame, if_pos (by omega), wsub_eq hlo (by omega)]
  have hrest : frontRest b start = ⟨start, b.start + b.size - start, .free⟩ := by
    unfold frontRest
    by_cases hsame : b.start = start
    · rw [if_neg (not_not.mpr hsame), ← hsame, ← hfree, Nat.add_sub_cancel_left]
    · rw [if_pos hsame, wsub_eq hlo (by omega), wsub_eq (by omega) hword, hfree, Bt.mk.injEq]
      exact ⟨rfl, by omega, rfl⟩
  have hleft : wsub (b.start + b.size - start) size = b.start + b.size - (start + size) := by
    rw [wsub_eq (by omega) (by omega)]
    omega
  unfold clipped pieces
  rw [hfront, hrest]
  congr 1
  unfold backPieces
  dsimp only
  rw [hleft]
  by_cases hback : start + size < b.start + b.size
  · have hle := Nat.le_of_dvd (by omega) hq
    rw [if_pos ⟨by omega, by omega⟩, if_pos hback, wadd_eq (by omega)]
  · rw [if_neg (by omega), if_neg hback, show b.start + b.size - start = size by omega]

/-- Where the allocation begins before the tag, the piece before it and the last one
    overlap, and neither is a span. -/
theorem clipped_before (hfree : b.type = .free) (hpos : 0 < b.size)
    (hword : b.size < 2 ^ 64) (hend : b.start + b.size ≤ 2 ^ 64) (hlt : start < b.start)
    (hsize : 0 < size) (hmask : size + mask < 2 ^ 64) :
    ∃ x y rest, clipped b start size mask = x :: rest ∧ y ∈ rest ∧ isSpan x = false ∧
      isSpan y = false ∧ ¬ Disjoint x y := by
  have hne : b.start ≠ start := by omega
  have hfront : wsub start b.start = 2 ^ 64 - (b.start - start) := by
    unfold wsub
    omega
  have hrest : frontRest b start = ⟨start, (b.start + b.size - start) % 2 ^ 64, .free⟩ := by
    unfold frontRest
    rw [if_pos hne, hfront, hfree, Bt.mk.injEq]
    refine ⟨rfl, ?_, rfl⟩
    unfold wsub
    omega
  unfold clipped frontPieces
  rw [if_pos hne, hrest, hfront]
  unfold backPieces
  dsimp only
  split
  case isTrue hsplit =>
    refine ⟨_, _, _, rfl, List.mem_cons_of_mem _ (List.mem_singleton_self _), rfl, rfl, ?_⟩
    have hleft := hsplit.1
    unfold Disjoint wadd wsub
    dsimp only
    omega
  case isFalse hwhole =>
  refine ⟨_, _, _, rfl, List.mem_singleton_self _, rfl, rfl, ?_⟩
  unfold wsub at hwhole
  unfold Disjoint
  dsimp only
  omega

theorem pieces_within (hfits : start + size ≤ b.start + b.size) (hlo : b.start ≤ start) :
    ∀ x ∈ pieces b start size, b.start ≤ x.start ∧ x.start + x.size ≤ b.start + b.size := by
  intro x hx
  unfold pieces at hx
  rw [List.mem_append, List.mem_cons] at hx
  rcases hx with hx | rfl | hx
  · split at hx
    · rw [List.mem_singleton] at hx
      subst hx
      exact ⟨le_rfl, by simp only; omega⟩
    · exact absurd hx List.not_mem_nil
  · exact ⟨hlo, hfits⟩
  split at hx
  · rw [List.mem_singleton] at hx
    subst hx
    exact ⟨by simp only; omega, by simp only; omega⟩
  · exact absurd hx List.not_mem_nil

theorem pieces_untangled (b : Bt) (start size : Nat) : Untangled (pieces b start size) := by
  unfold Untangled pieces
  rw [List.pairwise_append, List.pairwise_cons]
  refine ⟨?_, ⟨fun y hy => ?_, ?_⟩, fun x hx y hy => ?_⟩
  · split
    · exact List.pairwise_singleton _ _
    · exact List.Pairwise.nil
  · split at hy
    · rw [List.mem_singleton] at hy
      subst hy
      exact Or.inr (Or.inr (Or.inl le_rfl))
    · exact absurd hy List.not_mem_nil
  · split
    · exact List.pairwise_singleton _ _
    · exact List.Pairwise.nil
  -- All that follows the piece before the allocation begins where that ends, or later.
  split at hx
  · rw [List.mem_singleton] at hx
    subst hx
    refine Or.inr (Or.inr (Or.inl ?_))
    rcases List.mem_cons.mp hy with rfl | hy
    · simp only
      omega
    split at hy
    · rw [List.mem_singleton] at hy
      subst hy
      simp only
      omega
    · exact absurd hy List.not_mem_nil
  · exact absurd hx List.not_mem_nil

end pieces

theorem Converted.untangled {vm vm' : Arena} {start size : Nat} (h : Converted vm vm' start size)
    (hold : Untangled (contents vm)) : Untangled (contents vm') := by
  rcases h with ⟨pre, b, post, hcont, hfree, hlo, hhi, hnew⟩
  have hspan : isSpan b = false := not_isSpan (Or.inl hfree)
  rw [hcont, Untangled, List.pairwise_append, List.pairwise_cons] at hold
  rcases hold with ⟨hpre, ⟨hbpost, hpost⟩, hprepost⟩
  have hwithin := pieces_within hhi hlo
  -- A piece is beside every tag its tag was beside.
  have hleft : ∀ x ∈ pre, ∀ y ∈ pieces b start size,
      isSpan x = true ∨ isSpan y = true ∨ Disjoint x y := by
    intro x hx y hy
    have hy' := hwithin y hy
    rcases hprepost x hx b List.mem_cons_self with hs | hs | hd
    · exact Or.inl hs
    · rw [hspan] at hs
      cases hs
    · unfold Disjoint at hd ⊢
      exact Or.inr (Or.inr (by omega))
  have hright : ∀ x ∈ pieces b start size, ∀ y ∈ post,
      isSpan x = true ∨ isSpan y = true ∨ Disjoint x y := by
    intro x hx y hy
    have hx' := hwithin x hx
    rcases hbpost y hy with hs | hs | hd
    · rw [hspan] at hs
      cases hs
    · exact Or.inr (Or.inl hs)
    · unfold Disjoint at hd ⊢
      exact Or.inr (Or.inr (by omega))
  rw [hnew, Untangled, List.append_assoc, List.pairwise_append, List.pairwise_append]
  refine ⟨hpre, ⟨pieces_untangled b start size, hpost, hright⟩, fun x hx y hy => ?_⟩
  rcases List.mem_append.mp hy with hy | hy
  · exact hleft x hx y hy
  · exact hprepost x hx y (List.mem_cons_of_mem b hy)

theorem Ok.untangled {vm : Arena} {gs : List (Nat × List Nat)} (h : Ok vm ∅ gs) :
    Untangled (contents vm) := by
  unfold Untangled contents
  rw [List.pairwise_map]
  refine h.segs.nodup.pairwise_of_forall_ne (fun x hx y hy hne => ?_)
  by_cases hxs : isSpan (vm.tag x) = true
  · exact Or.inl hxs
  by_cases hys : isSpan (vm.tag y) = true
  · exact Or.inr (Or.inl hys)
  · rw [Bool.not_eq_true] at hxs hys
    exact Or.inr (Or.inr (h.disjoint hx hxs hy hys hne))

end FreeBSDKern.Vmem
