import FreeBSDKern.Lib.BlockChain
import FreeBSDKern.Lib.Tailq

/-!
# The Block Queues of a Terminal

The input and the output queue of a terminal (`tty_inq.c`, `tty_outq.c`) keep
their bytes in a chain of blocks of one size, and the code that handles the
chain is the same text in both files up to the names. This module is that code.

Positions are counted from the first block of the chain. `endPos` is the write
position, and `last` points to the block of the byte before it. The pointer is
left behind by a queue that has been drained, and moves to the next block only
when a byte is written there. A block is put back at the head of the chain when
the queue is empty, and behind `last` otherwise.

A pointer that is not in the chain is a dangling pointer in the source, and an
operation that would follow one stops here with `none`, as does a failed
`MPASS`. The results say that neither happens. The position of the next byte is
an `unsigned int`, so a queue of 2^32 bytes or more would wrap: `tty_watermarks`
asks for at most `TTYBUF_MAX`, which is 65536 bytes.

## Main definitions

* `Queue`: The chain and the positions, over a memory for the blocks.
* `insertTail`, `removeHead`, `recycle`, `setsize`: The chain.
* `write`: The loop that copies bytes to the end of the queue.
* `Queue.Ok`: The invariant.

## Theorems

* `insertTail_ok`: A new block is behind everything in use.
* `writeTarget_eq`: The block the next byte goes to.
* `write_ok`: A write appends the longest prefix that fits.
-/

namespace FreeBSDKern.Tty

open Lib

/-- The number of values of an `unsigned int`. -/
def uintSize : Nat := 2 ^ 32

/-- A queue of bytes in a chain of blocks. -/
structure Queue (M : Type) where
  /-- The blocks from `firstblock` on, by their `next` pointers. -/
  first : List Nat
  last : Option Nat
  beginPos : Nat
  endPos : Nat
  nblocks : Nat
  quota : Nat
  /-- What the blocks hold, used and freed ones included. -/
  mem : M
  /-- A block that has never been allocated. -/
  nextBlock : Nat

variable {M β : Type}

/-- Add a block where the next byte does not go past it. -/
def insertTail (q : Queue M) (b : Nat) : Option (Queue M) :=
  if q.endPos = 0 then
    some { q with first := b :: q.first, nblocks := q.nblocks + 1 }
  else match q.last with
    | none => none
    | some t =>
      if t ∈ q.first then
        some { q with first := insertAfter q.first t b, nblocks := q.nblocks + 1 }
      else none

/-- Take the first block out of the chain. The callers have looked at it. -/
def removeHead (q : Queue M) : Queue M :=
  { q with first := q.first.tail, nblocks := q.nblocks - 1 }

/-- Put a block that has been read back, or free it. -/
def recycle (q : Queue M) (b : Nat) : Option (Queue M) :=
  if q.quota ≤ q.nblocks then some q else insertTail q b

def howmany (x y : Nat) : Nat := (x + (y - 1)) / y

/-- The loop of `setsize`, with a new block from `uma_zalloc` in each turn. -/
def setsizeLoop : Nat → Queue M → Option (Queue M)
  | 0, q => some q
  | n + 1, q =>
    if q.nblocks < q.quota then
      match insertTail { q with nextBlock := q.nextBlock + 1 } q.nextBlock with
      | none => none
      | some q' => setsizeLoop n q'
    else some q

def setsize (D : Nat) (q : Queue M) (size : Nat) : Option (Queue M) :=
  let q := { q with quota := howmany size D % uintSize }
  setsizeLoop (q.quota - q.nblocks) q

/-- The block the next byte goes to: `some none` when there is none left. -/
def writeTarget (D : Nat) (q : Queue M) : Option (Option Nat) :=
  if q.endPos = 0 then
    -- First time we're being used or drained.
    if q.beginPos = 0 then some q.first.head? else none
  else match q.last with
    | none => none
    | some t =>
      if t ∈ q.first then
        -- At a block boundary the last write reached the end of its block.
        some (if q.endPos % D = 0 then next? q.first t else some t)
      else none

/-- The loop of `write`. The memory is left to `store`, which copies bytes to an
    offset of a block. The result counts the bytes that were accepted. -/
def writeLoop (D : Nat) (store : M → Nat → Nat → List β → M) :
    Nat → Queue M → List β → Option (Queue M × Nat)
  | 0, q, _ => some (q, 0)
  | _ + 1, q, [] => some (q, 0)
  | fuel + 1, q, x :: xs =>
    match writeTarget D q with
    | none => none
    | some none => some (q, 0)
    | some (some b) =>
      let boff := q.endPos % D
      let l := min (x :: xs).length (D - boff)
      let q' := { q with last := some b, mem := store q.mem b boff ((x :: xs).take l),
                         endPos := (q.endPos + l) % uintSize }
      match writeLoop D store fuel q' ((x :: xs).drop l) with
      | none => none
      | some (q'', n) => some (q'', l + n)

def write (D : Nat) (store : M → Nat → Nat → List β → M) (q : Queue M) (buf : List β) :
    Option (Queue M × Nat) :=
  writeLoop D store buf.length q buf

/-- The bytes that can still be written, where `MPASS` finds the end in the chain. -/
def bytesleft (D : Nat) (q : Queue M) : Option Nat :=
  if q.endPos ≤ q.nblocks * D then some (q.nblocks * D - q.endPos) else none

/-- All or nothing. The second component is the return code. -/
def writeNofrag (D : Nat) (store : M → Nat → Nat → List β → M) (q : Queue M) (buf : List β) :
    Option (Queue M × Int) :=
  match bytesleft D q with
  | none => none
  | some left =>
    if left < buf.length then some (q, -1)
    else match write D store q buf with
      | none => none
      | some (q', ret) => if ret = buf.length then some (q', 0) else none

/-! ## The invariant -/

/-- The positions are in the chain, and `last` is the block of the last byte. -/
structure Queue.Ok (D : Nat) (q : Queue M) : Prop where
  nodup : q.first.Nodup
  fresh : ∀ b ∈ q.first, b < q.nextBlock
  count : q.nblocks = q.first.length
  order : q.beginPos ≤ q.endPos
  head : q.beginPos < D
  room : q.endPos ≤ q.first.length * D
  last : 0 < q.endPos → ∃ b, q.last = some b ∧ q.first[(q.endPos - 1) / D]? = some b
  quota : q.quota * D < uintSize
  small : q.first.length * D < uintSize

/-- The memory as a function of the block and the offset, and what a `store`
    does to it inside a block. The bytes are kept with the marks of `mark`. -/
def Stores {γ : Type} (D : Nat) (view : M → Nat → Nat → γ) (mark : β → γ)
    (store : M → Nat → Nat → List β → M) : Prop :=
  ∀ m b off src, off + src.length ≤ D → ∀ b' o, o < D → view (store m b off src) b' o =
      Function.update (view m) b (copyIn (view m b) off (src.map mark)) b' o

/-- What the queue holds at a position. -/
def Queue.cells {γ : Type} (D : Nat) (view : M → Nat → Nat → γ) (q : Queue M) (p : Nat) : γ :=
  cell D (view q.mem) q.first p

section Proofs

variable {γ : Type} {D : Nat} {view : M → Nat → Nat → γ} {mark : β → γ}
  {store : M → Nat → Nat → List β → M} {q q' : Queue M}

theorem Queue.Ok.begin_eq (h : q.Ok D) (he : q.endPos = 0) : q.beginPos = 0 := by
  have := h.order
  omega

/-- The block the next byte goes to is the one its position says. -/
theorem writeTarget_eq (h : q.Ok D) : writeTarget D q = some (q.first[q.endPos / D]?) := by
  unfold writeTarget
  split
  case isTrue he =>
    rw [if_pos (h.begin_eq he), he, Nat.zero_div, List.head?_eq_getElem?]
  case isFalse he =>
  obtain ⟨b, hlast, hb⟩ := h.last (Nat.pos_of_ne_zero he)
  have hpos : q.endPos - 1 + 1 = q.endPos := by omega
  simp only [hlast]
  rw [if_pos (List.mem_of_getElem? hb)]
  split
  case isTrue hmod =>
    have hdiv : (q.endPos - 1) / D + 1 = q.endPos / D := by
      have hdvd : D ∣ q.endPos - 1 + 1 := by
        rw [hpos]
        exact Nat.dvd_of_mod_eq_zero hmod
      rw [← Nat.succ_div_of_dvd hdvd, hpos]
    rw [next?_getElem h.nodup hb, hdiv]
  case isFalse hmod =>
  have hdiv : (q.endPos - 1) / D = q.endPos / D := by
    have hdvd : ¬D ∣ q.endPos - 1 + 1 := by
      rw [hpos]
      exact fun hd => hmod (Nat.mod_eq_zero_of_dvd hd)
    rw [← Nat.succ_div_of_not_dvd hdvd, hpos]
  rw [← hb, hdiv]

/-- The second queue is the first with a list of bytes behind it. -/
structure Wrote (D : Nat) (view : M → Nat → Nat → γ) (mark : β → γ) (q q' : Queue M)
    (src : List β) : Prop where
  ok : q'.Ok D
  first : q'.first = q.first
  nblocks : q'.nblocks = q.nblocks
  quota : q'.quota = q.quota
  nextBlock : q'.nextBlock = q.nextBlock
  beginPos : q'.beginPos = q.beginPos
  endPos : q'.endPos = q.endPos + src.length
  keep : ∀ p, p < q.endPos → q'.cells D view p = q.cells D view p
  new : window (q'.cells D view) q.endPos q'.endPos = src.map mark
  outside : ∀ b, b ∉ q.first → ∀ o, o < D → view q'.mem b o = view q.mem b o

theorem Wrote.refl (h : q.Ok D) : Wrote D view mark q q [] where
  ok := h
  first := rfl
  nblocks := rfl
  quota := rfl
  nextBlock := rfl
  beginPos := rfl
  endPos := rfl
  keep := fun _ _ => rfl
  new := window_self _ _
  outside := fun _ _ _ _ => rfl

theorem Wrote.trans {q₁ q₂ : Queue M} {s₁ s₂ : List β} (h₁ : Wrote D view mark q q₁ s₁)
    (h₂ : Wrote D view mark q₁ q₂ s₂) : Wrote D view mark q q₂ (s₁ ++ s₂) where
  ok := h₂.ok
  first := h₂.first.trans h₁.first
  nblocks := h₂.nblocks.trans h₁.nblocks
  quota := h₂.quota.trans h₁.quota
  nextBlock := h₂.nextBlock.trans h₁.nextBlock
  beginPos := h₂.beginPos.trans h₁.beginPos
  endPos := by
    rw [h₂.endPos, h₁.endPos, List.length_append, Nat.add_assoc]
  keep := by
    intro p hp
    have hp₁ : p < q₁.endPos := by
      rw [h₁.endPos]
      omega
    rw [h₂.keep p hp₁, h₁.keep p hp]
  new := by
    have hle₁ : q.endPos ≤ q₁.endPos := by
      rw [h₁.endPos]
      omega
    have hle₂ : q₁.endPos ≤ q₂.endPos := by
      rw [h₂.endPos]
      omega
    rw [← window_append _ hle₁ hle₂, h₂.new, window_congr (fun p _ hp => h₂.keep p hp), h₁.new,
      List.map_append]
  outside := fun b hb o ho =>
    (h₂.outside b (by rwa [h₁.first]) o ho).trans (h₁.outside b hb o ho)

theorem chunk_le (hD : 0 < D) (n : Nat) : q.endPos % D + min n (D - q.endPos % D) ≤ D := by
  have := Nat.mod_lt q.endPos hD
  omega

variable {b : Nat} {rest : List Nat}

/-- Behind the end there is room up to the end of the block. -/
theorem block_room (hb : q.first[q.endPos / D]? = some b) {l : Nat} (hl : q.endPos % D + l ≤ D) :
    q.endPos + l ≤ q.first.length * D := by
  obtain ⟨hlt, -⟩ := List.getElem?_eq_some_iff.mp hb
  have hmul := Nat.mul_le_mul_left D (Nat.succ_le_of_lt hlt)
  have hdiv := Nat.div_add_mod q.endPos D
  rw [Nat.succ_eq_add_one, Nat.mul_add, Nat.mul_one, Nat.mul_comm D q.first.length] at hmul
  omega

section

variable (hs : Stores D view mark store) (hD : 0 < D)
include hs hD

/-- One turn of the loop of `write`. -/
theorem wrote_chunk (h : q.Ok D)
    (hb : q.first[q.endPos / D]? = some b) {src : List β} (hne : src ≠ [])
    (hsrc : q.endPos % D + src.length ≤ D) :
    Wrote D view mark q { q with last := some b, mem := store q.mem b (q.endPos % D) src,
                                 endPos := (q.endPos + src.length) % uintSize } src := by
  have hroom := block_room hb hsrc
  have hpos : 0 < src.length := List.length_pos_iff.mpr hne
  have hwrap : (q.endPos + src.length) % uintSize = q.endPos + src.length :=
    Nat.mod_eq_of_lt (lt_of_le_of_lt hroom h.small)
  rw [hwrap]
  -- The copy changes the positions behind the end and no others.
  have hcell : ∀ p, p < q.first.length * D →
      cell D (view (store q.mem b (q.endPos % D) src)) q.first p =
        if q.endPos ≤ p then (src.map mark).getD (p - q.endPos) (q.cells D view p)
        else q.cells D view p := by
    intro p hp
    have hlen : q.endPos % D + (src.map mark).length ≤ D := by rwa [List.length_map]
    rw [Queue.cells, ← cell_copyIn (view q.mem) h.nodup hb (src.map mark) hlen hp, cell, cell]
    exact hs q.mem b (q.endPos % D) src hsrc _ _ (Nat.mod_lt p hD)
  refine ⟨⟨h.nodup, h.fresh, h.count, ?_, h.head, hroom, ?_, h.quota, h.small⟩, rfl, rfl, rfl, rfl,
    rfl, rfl, ?_, ?_, ?_⟩
  · have := h.order
    show q.beginPos ≤ q.endPos + src.length
    omega
  · intro _
    have hdiv : (q.endPos + src.length - 1) / D = q.endPos / D := by
      have hmod := Nat.div_add_mod q.endPos D
      refine Nat.div_eq_of_lt_le ?_ ?_
      · rw [Nat.mul_comm]
        omega
      · rw [Nat.succ_mul, Nat.mul_comm]
        omega
    exact ⟨b, rfl, by show q.first[(q.endPos + src.length - 1) / D]? = some b; rw [hdiv, hb]⟩
  · intro p hp
    have hlt : p < q.first.length * D := by omega
    exact (hcell p hlt).trans (if_neg (by omega))
  · have hlen : src.length = (src.map mark).length := (List.length_map _).symm
    show window _ q.endPos (q.endPos + src.length) = _
    rw [hlen]
    refine window_eq_list (fun i hi => ?_)
    have hlt : q.endPos + i < q.first.length * D := by omega
    refine (hcell (q.endPos + i) hlt).trans ?_
    rw [if_pos (by omega), Nat.add_sub_cancel_left, List.getD_eq_getElem _ _ hi]
  intro b' hb' o ho
  have hne : b' ≠ b := fun heq => hb' (heq ▸ List.mem_of_getElem? hb)
  rw [hs q.mem b (q.endPos % D) src hsrc b' o ho, Function.update_of_ne hne]

/-- A write appends the longest prefix that fits in the chain. -/
theorem writeLoop_ok :
    ∀ (fuel : Nat) (q : Queue M) (buf : List β), buf.length ≤ fuel → q.Ok D →
      ∃ q' n, writeLoop D store fuel q buf = some (q', n) ∧
        n = min buf.length (q.first.length * D - q.endPos) ∧
        Wrote D view mark q q' (buf.take n) := by
  intro fuel
  induction fuel with
  | zero =>
    intro q buf hlen h
    obtain rfl : buf = [] := List.length_eq_zero_iff.mp (by omega)
    exact ⟨q, 0, rfl, by simp only [List.length_nil, Nat.zero_min], Wrote.refl h⟩
  | succ fuel ih =>
    intro q buf hlen h
    cases buf with
    | nil => exact ⟨q, 0, rfl, by simp only [List.length_nil, Nat.zero_min], Wrote.refl h⟩
    | cons x xs =>
      rw [writeLoop, writeTarget_eq h]
      cases hb : q.first[q.endPos / D]? with
      | none =>
        -- There is no block left, and the end is the end of the chain.
        have hge := List.getElem?_eq_none_iff.mp hb
        have hfull : q.first.length * D ≤ q.endPos :=
          (Nat.le_div_iff_mul_le hD).mp hge
        refine ⟨q, 0, rfl, ?_, Wrote.refl h⟩
        omega
      | some b =>
        have hchunk := chunk_le (q := q) hD (x :: xs).length
        have hmod := Nat.mod_lt q.endPos hD
        generalize hl : min (x :: xs).length (D - q.endPos % D) = l at hchunk
        have hle : l ≤ (x :: xs).length := by omega
        have hpos : 0 < l := by
          rw [List.length_cons] at hl
          omega
        have htake : ((x :: xs).take l).length = l := by
          rw [List.length_take]
          omega
        have hne : (x :: xs).take l ≠ [] := List.ne_nil_of_length_pos (by omega)
        have hwrote := wrote_chunk hs hD h hb hne (by rwa [htake])
        rw [htake] at hwrote
        have hdrop : ((x :: xs).drop l).length ≤ fuel := by
          rw [List.length_drop]
          omega
        obtain ⟨q', n, hrun, hn, hrest⟩ := ih _ _ hdrop hwrote.ok
        refine ⟨q', l + n, ?_, ?_, ?_⟩
        · simp only [hl, hrun]
        · have hend := hwrote.endPos
          have hroom := block_room hb hchunk
          rw [hn, hwrote.first, hend, htake, List.length_drop]
          omega
        · rw [List.take_add]
          exact hwrote.trans hrest

theorem write_ok (h : q.Ok D) (buf : List β) :
    ∃ q' n, write D store q buf = some (q', n) ∧
      n = min buf.length (q.first.length * D - q.endPos) ∧ Wrote D view mark q q' (buf.take n) :=
  writeLoop_ok hs hD buf.length q buf le_rfl h

theorem writeNofrag_ok (h : q.Ok D) (buf : List β) :
    (q.first.length * D - q.endPos < buf.length ∧ writeNofrag D store q buf = some (q, -1)) ∨
    ∃ q', writeNofrag D store q buf = some (q', 0) ∧ Wrote D view mark q q' buf := by
  have hleft : bytesleft D q = some (q.first.length * D - q.endPos) := by
    rw [bytesleft, h.count, if_pos h.room]
  rw [writeNofrag, hleft]
  dsimp only
  split
  case isTrue hlt => exact .inl ⟨hlt, rfl⟩
  case isFalse hge =>
  obtain ⟨q', n, hw, hn, hwrote⟩ := write_ok hs hD h buf
  have hall : n = buf.length := by omega
  rw [hall, List.take_length] at hwrote
  exact .inr ⟨q', by rw [hw]; exact if_pos hall, hwrote⟩

end

/-! ## The chain -/

/-- The second queue holds what the first does, at the same positions. -/
structure Kept (D : Nat) (view : M → Nat → Nat → γ) (q q' : Queue M) : Prop where
  ok : q'.Ok D
  beginPos : q'.beginPos = q.beginPos
  endPos : q'.endPos = q.endPos
  keep : ∀ p, p < q.endPos → q'.cells D view p = q.cells D view p

theorem Kept.refl (h : q.Ok D) : Kept D view q q := ⟨h, rfl, rfl, fun _ _ => rfl⟩

theorem Kept.trans {q₁ q₂ : Queue M} (h₁ : Kept D view q q₁) (h₂ : Kept D view q₁ q₂) :
    Kept D view q q₂ where
  ok := h₂.ok
  beginPos := h₂.beginPos.trans h₁.beginPos
  endPos := h₂.endPos.trans h₁.endPos
  keep := fun p hp => (h₂.keep p (by rw [h₁.endPos]; exact hp)).trans (h₁.keep p hp)

theorem insertTail_ok (view : M → Nat → Nat → γ) (hD : 0 < D) (h : q.Ok D) (hb : b ∉ q.first)
    (hfresh : b < q.nextBlock) (hsmall : (q.first.length + 1) * D < uintSize) :
    ∃ q', insertTail q b = some q' ∧ Kept D view q q' ∧ q'.nblocks = q.nblocks + 1 ∧
      q'.quota = q.quota := by
  unfold insertTail
  split
  case isTrue he =>
    refine ⟨_, rfl, ⟨⟨List.nodup_cons.mpr ⟨hb, h.nodup⟩, ?_, ?_, h.order, h.head, ?_, ?_, h.quota,
      hsmall⟩, rfl, rfl, fun p hp => ?_⟩, rfl, rfl⟩
    · intro x hx
      rcases List.mem_cons.mp hx with rfl | hx
      · exact hfresh
      · exact h.fresh x hx
    · exact congrArg (· + 1) h.count
    · show q.endPos ≤ _
      omega
    · intro hpos
      exact absurd hpos (by show ¬0 < q.endPos; omega)
    · omega
  case isFalse he =>
  obtain ⟨t, hlast, ht⟩ := h.last (Nat.pos_of_ne_zero he)
  generalize hi : (q.endPos - 1) / D = i at ht
  have hlt : i < q.first.length := (List.getElem?_eq_some_iff.mp ht).1
  simp only [hlast]
  rw [if_pos (List.mem_of_getElem? ht), insertAfter_getElem h.nodup ht]
  have hperm : (q.first.take (i + 1) ++ b :: q.first.drop (i + 1)).Perm (b :: q.first) := by
    refine List.perm_middle.trans ?_
    rw [List.take_append_drop]
  have hlen : (q.first.take (i + 1)).length = i + 1 := by
    rw [List.length_take]
    omega
  refine ⟨_, rfl, ⟨⟨hperm.nodup_iff.mpr (List.nodup_cons.mpr ⟨hb, h.nodup⟩), ?_, ?_, h.order,
    h.head, ?_, ?_, h.quota, ?_⟩, rfl, rfl, fun p hp => ?_⟩, rfl, rfl⟩
  · intro x hx
    rcases List.mem_cons.mp (hperm.mem_iff.mp hx) with rfl | hx
    · exact hfresh
    · exact h.fresh x hx
  · rw [hperm.length_eq]
    exact congrArg (· + 1) h.count
  · rw [hperm.length_eq, List.length_cons, Nat.add_mul]
    exact Nat.le_add_right_of_le h.room
  · intro _
    refine ⟨t, rfl, ?_⟩
    show (q.first.take (i + 1) ++ b :: q.first.drop (i + 1))[(q.endPos - 1) / D]? = some t
    rw [hi, List.getElem?_append_left (by omega), List.getElem?_take_of_lt (Nat.lt_succ_self i), ht]
  · rw [hperm.length_eq]
    exact hsmall
  have hpre : p < (q.first.take (i + 1)).length * D := by
    have hdiv : p / D < i + 1 := by
      have := Nat.div_le_div_right (c := D) (show p ≤ q.endPos - 1 by omega)
      omega
    rw [hlen]
    exact (Nat.div_lt_iff_lt_mul hD).mp hdiv
  refine (cell_insert D (view q.mem) _ _ b hpre).trans ?_
  rw [List.take_append_drop]
  rfl

theorem recycle_ok (view : M → Nat → Nat → γ) (hD : 0 < D) (h : q.Ok D) (hb : b ∉ q.first)
    (hfresh : b < q.nextBlock) : ∃ q', recycle q b = some q' ∧ Kept D view q q' := by
  unfold recycle
  split
  case isTrue => exact ⟨q, rfl, Kept.refl h⟩
  case isFalse hlt =>
  rw [h.count] at hlt
  have hsmall : (q.first.length + 1) * D < uintSize :=
    lt_of_le_of_lt (Nat.mul_le_mul_right D (by omega)) h.quota
  obtain ⟨q', hins, hkept, -, -⟩ := insertTail_ok view hD h hb hfresh hsmall
  exact ⟨q', hins, hkept⟩

theorem setsizeLoop_ok (view : M → Nat → Nat → γ) (hD : 0 < D) : ∀ (n : Nat) (q : Queue M),
    q.Ok D → ∃ q', setsizeLoop n q = some q' ∧ Kept D view q q' := by
  intro n
  induction n with
  | zero => intro q h; exact ⟨q, rfl, Kept.refl h⟩
  | succ n ih =>
    intro q h
    rw [setsizeLoop]
    split
    case isFalse => exact ⟨q, rfl, Kept.refl h⟩
    case isTrue hlt =>
    rw [h.count] at hlt
    have hsmall : (q.first.length + 1) * D < uintSize :=
      lt_of_le_of_lt (Nat.mul_le_mul_right D (by omega)) h.quota
    have h' : Queue.Ok D { q with nextBlock := q.nextBlock + 1 } :=
      ⟨h.nodup, fun b hb => Nat.lt_succ_of_lt (h.fresh b hb), h.count, h.order, h.head, h.room,
        h.last, h.quota, h.small⟩
    obtain ⟨q₁, hins, hkept₁, -, -⟩ := insertTail_ok view hD h'
      (b := q.nextBlock) (fun hin => lt_irrefl _ (h.fresh _ hin)) (Nat.lt_succ_self _) hsmall
    obtain ⟨q₂, hloop, hkept₂⟩ := ih q₁ hkept₁.ok
    have hfirst : Kept D view q { q with nextBlock := q.nextBlock + 1 } :=
      ⟨h', rfl, rfl, fun _ _ => rfl⟩
    exact ⟨q₂, by rw [hins]; exact hloop, (hfirst.trans hkept₁).trans hkept₂⟩

/-- A size below the range of the positions. -/
def SizeOk (D size : Nat) : Prop := size + D ≤ uintSize

theorem setsize_ok (view : M → Nat → Nat → γ) (hD : 0 < D) (h : q.Ok D) {size : Nat}
    (hsize : SizeOk D size) : ∃ q', setsize D q size = some q' ∧ Kept D view q q' := by
  unfold SizeOk at hsize
  have hmul : howmany size D * D ≤ size + (D - 1) := Nat.div_mul_le_self _ D
  have hquota : howmany size D % uintSize * D < uintSize :=
    calc howmany size D % uintSize * D ≤ howmany size D * D :=
          Nat.mul_le_mul_right D (Nat.mod_le _ _)
      _ < uintSize := by omega
  have h' : Queue.Ok D { q with quota := howmany size D % uintSize } :=
    ⟨h.nodup, h.fresh, h.count, h.order, h.head, h.room, h.last, hquota, h.small⟩
  obtain ⟨q', hloop, hkept⟩ := setsizeLoop_ok view hD
    (howmany size D % uintSize - q.nblocks) _ h'
  have hfirst : Kept D view q { q with quota := howmany size D % uintSize } :=
    ⟨h', rfl, rfl, fun _ _ => rfl⟩
  exact ⟨q', hloop, hfirst.trans hkept⟩

/-- A position after the first block is gone. -/
def correctBlock (D t : Nat) : Nat := if t ≤ D then 0 else t - D

theorem correctBlock_eq (t : Nat) : correctBlock D t = t - D := by
  unfold correctBlock
  split <;> omega

/-- The queue without a first block that has been read. -/
theorem behead_ok (hD : 0 < D) (h : q.Ok D) (hfirst : q.first = b :: rest) :
    Queue.Ok D { removeHead q with beginPos := 0, endPos := correctBlock D q.endPos } ∧
      b ∉ q.first.tail ∧ b < q.nextBlock := by
  have hnodup := h.nodup
  have hroom := h.room
  have hsmall := h.small
  rw [hfirst] at hnodup
  rw [hfirst, List.length_cons, Nat.add_mul, Nat.one_mul] at hroom hsmall
  obtain ⟨hb, hrest⟩ := List.nodup_cons.mp hnodup
  have htail : q.first.tail = rest := by rw [hfirst, List.tail_cons]
  rw [removeHead, htail]
  refine ⟨⟨hrest, ?_, ?_, zero_le, hD, ?_, ?_, h.quota, ?_⟩, hb, ?_⟩
  · intro x hx
    exact h.fresh x (by rw [hfirst]; exact List.mem_cons_of_mem b hx)
  · show q.nblocks - 1 = rest.length
    rw [h.count, hfirst, List.length_cons, Nat.add_sub_cancel]
  · show correctBlock D q.endPos ≤ rest.length * D
    rw [correctBlock_eq]
    omega
  · intro hpos
    replace hpos : 0 < correctBlock D q.endPos := hpos
    rw [correctBlock_eq] at hpos
    obtain ⟨t, hlast, ht⟩ := h.last (by omega)
    refine ⟨t, hlast, ?_⟩
    -- The last byte is in a later block, which has moved up by one.
    have hdiv : (q.endPos - 1) / D = (q.endPos - D - 1) / D + 1 := by
      rw [← Nat.add_div_right _ hD]
      congr 1
      omega
    show rest[(correctBlock D q.endPos - 1) / D]? = some t
    rw [correctBlock_eq]
    rw [hfirst, hdiv, List.getElem?_cons_succ] at ht
    exact ht
  · show rest.length * D < uintSize
    omega
  · exact h.fresh b (by rw [hfirst]; exact List.mem_cons_self)

/-! ## Windows of the queue -/

theorem Wrote.window_eq {src : List β} (h : Wrote D view mark q q' src) (hb : b ≤ q.endPos) :
    window (q'.cells D view) b q'.endPos = window (q.cells D view) b q.endPos ++ src.map mark := by
  have hle : q.endPos ≤ q'.endPos := by
    rw [h.endPos]
    omega
  rw [← window_append _ hb hle, h.new, window_congr (fun p _ hp => h.keep p hp)]

theorem Kept.window_eq (h : Kept D view q q') {e : Nat} (he : e ≤ q.endPos) :
    window (q'.cells D view) b e = window (q.cells D view) b e :=
  window_congr (fun p _ hp => h.keep p (lt_of_lt_of_le hp he))

/-- In the first block a position is an offset. -/
theorem window_first (hfirst : q.first = b :: rest) {l e : Nat} (he : e ≤ D) :
    window (q.cells D view) l e = window (view q.mem b) l e := by
  refine window_congr (fun p _ hp => ?_)
  have hlt : p < D := by omega
  rw [Queue.cells, cell, hfirst, Nat.div_eq_of_lt hlt, Nat.mod_eq_of_lt hlt, List.getD_cons_zero]

theorem window_behead (hD : 0 < D) (hfirst : q.first = b :: rest) (l e u v : Nat) :
    window (Queue.cells D view { removeHead q with beginPos := u, endPos := v }) l e =
      window (q.cells D view) (l + D) (e + D) := by
  rw [← window_shift]
  refine window_congr (fun p _ _ => ?_)
  rw [Queue.cells, Queue.cells, hfirst, cell_tail D (view q.mem) rest b p hD]
  show cell D (view q.mem) q.first.tail p = _
  rw [hfirst, List.tail_cons]

end Proofs

end FreeBSDKern.Tty
