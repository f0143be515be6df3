import FreeBSDKern.Tty.Inq

/-!
# Iteration over the Unfinished Line

`ttyinq_line_iterate` calls a function on the bytes from a position to the end of
the input queue, starting in a block that was remembered together with the
position. The remembered block is the last one written to at that time, so it
holds the byte *before* the position. It also holds the byte at the position,
except when the position is the first of a block. There `ttyinq_write` goes to
the next block, and `ttyinq_line_iterate` does not: it runs through the block
before, unless the position is 0, which it tests for.

At the other end the loop looks at the next block once more after the last byte
of a block. There is none when the chain is full, and the second `MPASS` of the
loop fails.

The position of a reprint can also lose its block: when the bytes behind it have
been taken back, a new block can be put before the one that is remembered.

## Main definitions

* `ttyinqLineIterate`: The loop, as the list of the calls it makes.
* `Placed`: Where the remembered blocks are.
* `startPos`: The position a loop starts at.
* `Faithful`: When the calls are those for the bytes of the line.

## Theorems

* `iterLoop_eq`: What the loop runs through, from any block of the chain.
* `exec_placed`, `free_placed`: Every operation keeps the remembered blocks placed.
* `lineIterate_faithful`: When an iteration is faithful, in every state of every run.
* `lineIterate_unfaithful`: A line behind a full block, and a full chain.
-/

namespace FreeBSDKern.Tty

open Lib

/-- The loop of `ttyinq_line_iterate` with the number of bytes that are left. -/
def iterLoop (ti : Inq) : Nat → Nat → Option Nat → Option (List (UInt8 × Bool))
  | 0, _, _ => some []
  | n + 1, offset, tib =>
    match tib with
    | none => none
    | some b =>
      if b ∈ ti.q.first then
        let boff := offset % ttyinqDatasize
        -- Last byte iterated: go to the next block.
        match if boff = ttyinqDatasize - 1 then next? ti.q.first b else some b with
        | none => none
        | some b' => (iterLoop ti n (offset + 1) (some b')).map
            ((ti.q.mem.data b boff, getbit (ti.q.mem.quotes b) boff) :: ·)
      else none

def ttyinqLineIterate (ti : Inq) (offset : Nat) (tib : Option Nat) : Option (List (UInt8 × Bool)) :=
  -- Use the proper block when we're at the queue head.
  let tib := if offset = 0 then ti.q.first.head? else tib
  iterLoop ti (ti.q.endPos - offset) offset tib

def ttyinqLineIterateFromLinestart (ti : Inq) : Option (List (UInt8 × Bool)) :=
  ttyinqLineIterate ti ti.linestart ti.startblock

def ttyinqLineIterateFromReprintpos (ti : Inq) : Option (List (UInt8 × Bool)) :=
  ttyinqLineIterate ti ti.reprint ti.reprintblock

/-- The loop of `ttyinq_free`. -/
def freeLoop : List Nat → Queue InqMem → Queue InqMem
  | [], q => q
  | _ :: rest, q => freeLoop rest (removeHead q)

/-- The end of a session: all blocks are freed, and the queue can be used again. -/
def ttyinqFree (ti : Inq) (secure : Bool) : Option Inq :=
  let ti := ttyinqFlush ti secure
  let q := freeLoop ti.q.first { ti.q with quota := 0 }
  if q.nblocks = 0 then some { ti with q := q } else none

/-- The operations of a terminal over more than one session. -/
inductive SessionOp where
  | inq (op : InOp)
  | free (secure : Bool)

def Inq.nextOf (ti : Inq) : SessionOp → Option Inq
  | .inq op => ti.next op
  | .free secure => ttyinqFree ti secure

def SessionOp.SizeOk : SessionOp → Prop
  | .inq op => op.SizeOk
  | .free _ => True

/-- The bytes behind the position of a reprint. -/
def Inq.reprintLine (ti : Inq) : List (UInt8 × Bool) := window ti.cells ti.reprint ti.q.endPos

/-! ## The loop -/

variable {ti ti' : Inq} {q q' : Queue InqMem}

/-- From a block of the chain the loop runs through the bytes from the offset in
    that block on, if there is a block behind the last of them. -/
theorem iterLoop_eq (hnodup : ti.q.first.Nodup) : ∀ (n offset j b : Nat), ti.q.first[j]? = some b →
      iterLoop ti n offset (some b) = if n = 0 ∨ j * ttyinqDatasize + offset % ttyinqDatasize + n <
          ti.q.first.length * ttyinqDatasize then
          some (window ti.cells (j * ttyinqDatasize + offset % ttyinqDatasize)
            (j * ttyinqDatasize + offset % ttyinqDatasize + n))
        else none := by
  intro n
  induction n with
  | zero =>
    intro offset j b _
    rw [iterLoop, if_pos (.inl rfl), Nat.add_zero, window_self]
  | succ n ih =>
    intro offset j b hb
    have hjlt : j < ti.q.first.length := (List.getElem?_eq_some_iff.mp hb).1
    have hmod : offset % ttyinqDatasize < ttyinqDatasize := Nat.mod_lt _ inqDatasize_pos
    have hmul : (j + 1) * ttyinqDatasize ≤ ti.q.first.length * ttyinqDatasize :=
      Nat.mul_le_mul_right _ hjlt
    rw [Nat.succ_mul] at hmul
    generalize hp : j * ttyinqDatasize + offset % ttyinqDatasize = p
    have hdivmod : p / ttyinqDatasize = j ∧ p % ttyinqDatasize = offset % ttyinqDatasize := by
      unfold ttyinqDatasize at hmod hp
      unfold ttyinqDatasize
      omega
    have hcell : ti.cells p = (ti.q.mem.data b (offset % ttyinqDatasize),
        getbit (ti.q.mem.quotes b) (offset % ttyinqDatasize)) := by
      rw [Inq.cells, Queue.cells, cell, hdivmod.1, hdivmod.2, List.getD_eq_getElem?_getD, hb,
        Option.getD_some, inqView]
    -- The first call and the calls of the rest.
    have hcons : ti.cells p :: window ti.cells (p + 1) (p + 1 + n) =
        window ti.cells p (p + (n + 1)) := by
      have happ := window_append ti.cells (Nat.le_succ p) (show p + 1 ≤ p + (n + 1) by omega)
      have hone : window ti.cells p (p + 1) = [ti.cells p] := by
        rw [window_succ _ le_rfl, window_self, List.nil_append]
      rw [Nat.succ_eq_add_one, hone] at happ
      rw [← happ, Nat.add_assoc, Nat.add_comm 1 n]
      rfl
    have hgoes : p + 1 < ti.q.first.length * ttyinqDatasize →
        (if n = 0 ∨ p + 1 + n < ti.q.first.length * ttyinqDatasize then
          some (window ti.cells (p + 1) (p + 1 + n)) else none).map (ti.cells p :: ·) =
        if n + 1 = 0 ∨ p + (n + 1) < ti.q.first.length * ttyinqDatasize then
          some (window ti.cells p (p + (n + 1))) else none := by
      intro hlt
      rw [← hcons]
      split
      case isTrue hin => rw [if_pos (by omega), Option.map_some]
      case isFalse hout => rw [if_neg (by omega), Option.map_none]
    rw [iterLoop]
    simp only
    rw [if_pos (List.mem_of_getElem? hb), ← hcell]
    by_cases hlast : offset % ttyinqDatasize = ttyinqDatasize - 1
    · rw [if_pos hlast, next?_getElem hnodup hb]
      cases hnext : ti.q.first[j + 1]? with
      | none =>
        -- The block is the last one, and the byte the last of the chain.
        have hlen := List.getElem?_eq_none_iff.mp hnext
        have heq : ti.q.first.length = j + 1 := by omega
        rw [if_neg]
        rw [heq, Nat.succ_mul]
        omega
      | some b' =>
        have hpos : (j + 1) * ttyinqDatasize + (offset + 1) % ttyinqDatasize = p + 1 := by
          rw [← hp, Nat.succ_mul]
          unfold ttyinqDatasize at hlast ⊢
          omega
        have hlt := (List.getElem?_eq_some_iff.mp hnext).1
        have hmul' : (j + 1 + 1) * ttyinqDatasize ≤ ti.q.first.length * ttyinqDatasize :=
          Nat.mul_le_mul_right _ hlt
        rw [Nat.succ_mul, Nat.succ_mul] at hmul'
        have hsize := inqDatasize_pos
        simp only
        rw [ih _ _ _ hnext, hpos, hgoes (by omega)]
    rw [if_neg hlast]
    have hpos : j * ttyinqDatasize + (offset + 1) % ttyinqDatasize = p + 1 := by
      unfold ttyinqDatasize at hlast hp ⊢
      omega
    simp only
    rw [ih _ _ _ hb, hpos, hgoes (by omega)]

/-- The position the loop starts at: the offset in the block that is remembered. -/
def startPos (ti : Inq) (offset : Nat) (tib : Option Nat) : Nat :=
  if offset = 0 then 0
  else (match tib with
    | some b => ti.q.first.idxOf b
    | none => 0) * ttyinqDatasize + offset % ttyinqDatasize

/-- The calls made are those for the bytes from the offset on: there is none, or
    there is a block behind the last byte that is looked at, and the bytes from the
    start position on are those of the line. -/
def Faithful (ti : Inq) (offset : Nat) (tib : Option Nat) : Prop :=
  ti.q.endPos ≤ offset ∨
    startPos ti offset tib + (ti.q.endPos - offset) < ti.q.nblocks * ttyinqDatasize ∧
      window ti.cells (startPos ti offset tib) (startPos ti offset tib + (ti.q.endPos - offset)) =
        window ti.cells offset ti.q.endPos

/-- A position with a remembered block that is in the chain. -/
theorem lineIterate_eq (h : ti.Ok) {offset : Nat} {tib : Option Nat}
    (hblock : 0 < offset → ∃ b, tib = some b ∧ b ∈ ti.q.first) : ttyinqLineIterate ti offset tib =
      if ti.q.endPos - offset = 0 ∨
        startPos ti offset tib + (ti.q.endPos - offset) < ti.q.nblocks * ttyinqDatasize then
        some (window ti.cells (startPos ti offset tib)
          (startPos ti offset tib + (ti.q.endPos - offset)))
      else none := by
  have hnodup := h.queue.nodup
  unfold ttyinqLineIterate startPos
  rw [h.queue.count]
  by_cases hzero : offset = 0
  · subst hzero
    simp only [if_true]
    cases hfirst : ti.q.first with
    | nil =>
      -- Without blocks the queue is empty.
      have hroom := h.queue.room
      rw [hfirst, List.length_nil, Nat.zero_mul] at hroom
      have hend : ti.q.endPos - 0 = 0 := by omega
      rw [hend, iterLoop, if_pos (.inl rfl), window_self]
    | cons b rest =>
      have hget : ti.q.first[0]? = some b := by rw [hfirst, List.getElem?_cons_zero]
      have hloop := iterLoop_eq hnodup (ti.q.endPos - 0) 0 0 b hget
      rw [Nat.zero_mul, Nat.zero_mod, Nat.zero_add, hfirst] at hloop
      rw [List.head?_cons, hloop]
      simp only [Nat.zero_add]
  obtain ⟨b, rfl, hmem⟩ := hblock (Nat.pos_of_ne_zero hzero)
  simp only [if_neg hzero]
  have hlt := List.idxOf_lt_length_of_mem hmem
  refine iterLoop_eq hnodup _ offset (ti.q.first.idxOf b) b ?_
  rw [List.getElem?_eq_getElem hlt, List.getElem_idxOf]

/-- When an iteration is faithful. -/
theorem lineIterate_iff (h : ti.Ok) {offset : Nat} {tib : Option Nat}
    (hblock : 0 < offset → ∃ b, tib = some b ∧ b ∈ ti.q.first) :
    ttyinqLineIterate ti offset tib = some (window ti.cells offset ti.q.endPos) ↔
      Faithful ti offset tib := by
  rw [lineIterate_eq h hblock, Faithful]
  by_cases hnone : ti.q.endPos ≤ offset
  · have hsub : ti.q.endPos - offset = 0 := by omega
    have hempty : window ti.cells offset ti.q.endPos = [] :=
      List.length_eq_zero_iff.mp (by rw [window_length, hsub])
    rw [hsub, if_pos (.inl rfl), Nat.add_zero, window_self, hempty]
    exact iff_of_true rfl (.inl hnone)
  have hsub : ti.q.endPos - offset ≠ 0 := by omega
  simp only [hsub, hnone, false_or]
  split
  case isTrue hlt => rw [Option.some.injEq, and_iff_right hlt]
  case isFalse hge =>
    exact iff_of_false (by simp only [reduceCtorEq, not_false_eq_true]) (fun hp => hge hp.1)

/-! ## Where the remembered blocks are -/

/-- The block remembered with the start of the line is that of the byte before it.
    So is the one of a reprint, or it has been moved away from there by blocks that
    were put before it. -/
structure Placed (ti : Inq) : Prop where
  ok : ti.Ok
  start : 0 < ti.linestart → ∃ b, ti.startblock = some b ∧
    ti.q.first[(ti.linestart - 1) / ttyinqDatasize]? = some b
  reprint : 0 < ti.reprint → ∃ b j, ti.reprintblock = some b ∧
    (ti.reprint - 1) / ttyinqDatasize ≤ j ∧ ti.q.first[j]? = some b

/-- The blocks of one chain are in the other, those in use at the same places. -/
def Spread (q q' : Queue InqMem) : Prop :=
  q'.endPos = q.endPos ∧ ∀ i b, q.first[i]? = some b → ∃ i', i ≤ i' ∧ q'.first[i']? = some b ∧
    (0 < q.endPos → i ≤ (q.endPos - 1) / ttyinqDatasize → i' = i)

theorem Spread.refl (q : Queue InqMem) : Spread q q :=
  ⟨rfl, fun i _ hb => ⟨i, Nat.le_refl i, hb, fun _ _ => rfl⟩⟩

theorem Spread.trans {q₁ q₂ : Queue InqMem} (h₁ : Spread q q₁) (h₂ : Spread q₁ q₂) :
    Spread q q₂ := by
  refine ⟨h₂.1.trans h₁.1, fun i b hb => ?_⟩
  obtain ⟨i₁, hle₁, hb₁, hkeep₁⟩ := h₁.2 i b hb
  obtain ⟨i₂, hle₂, hb₂, hkeep₂⟩ := h₂.2 i₁ b hb₁
  refine ⟨i₂, le_trans hle₁ hle₂, hb₂, fun hpos hi => ?_⟩
  have hi₁ := hkeep₁ hpos hi
  rw [h₁.1] at hkeep₂
  exact (hkeep₂ hpos (by rwa [hi₁])).trans hi₁

/-- A new block goes before the chain or behind the last block in use. -/
theorem insertTail_spread (h : q.Ok ttyinqDatasize) {b : Nat} (hins : insertTail q b = some q') :
    Spread q q' := by
  unfold insertTail at hins
  split at hins
  case isTrue hzero =>
    rw [Option.some.injEq] at hins
    subst hins
    refine ⟨rfl, fun i c hc => ⟨i + 1, Nat.le_succ i, ?_, fun hpos _ => ?_⟩⟩
    · rw [List.getElem?_cons_succ, hc]
    · omega
  case isFalse hne =>
  obtain ⟨t, hlast, ht⟩ := h.last (Nat.pos_of_ne_zero hne)
  generalize hk : (q.endPos - 1) / ttyinqDatasize = k at ht
  simp only [hlast] at hins
  rw [if_pos (List.mem_of_getElem? ht), insertAfter_getElem h.nodup ht, Option.some.injEq] at hins
  subst hins
  have hlt : k < q.first.length := (List.getElem?_eq_some_iff.mp ht).1
  have hlen : (q.first.take (k + 1)).length = k + 1 := by
    rw [List.length_take]
    omega
  refine ⟨rfl, fun i c hc => ?_⟩
  simp only
  by_cases hi : i ≤ k
  · refine ⟨i, Nat.le_refl i, ?_, fun _ _ => rfl⟩
    rw [List.getElem?_append_left (by omega), List.getElem?_take_of_lt (by omega), hc]
  refine ⟨i + 1, Nat.le_succ i, ?_, fun _ hle => ?_⟩
  · have hsub : i + 1 - (k + 1) = i - (k + 1) + 1 := by omega
    have hadd : k + 1 + (i - (k + 1)) = i := by omega
    rw [List.getElem?_append_right (by omega), hlen, hsub, List.getElem?_cons_succ,
      List.getElem?_drop, hadd, hc]
  · omega

theorem recycle_spread (h : q.Ok ttyinqDatasize) {b : Nat} (hrec : recycle q b = some q') :
    Spread q q' := by
  unfold recycle at hrec
  split at hrec
  case isTrue =>
    rw [Option.some.injEq] at hrec
    rw [← hrec]
    exact Spread.refl q
  case isFalse => exact insertTail_spread h hrec

theorem setsizeLoop_spread : ∀ (n : Nat) (q q' : Queue InqMem), q.Ok ttyinqDatasize →
    setsizeLoop n q = some q' → Spread q q' := by
  intro n
  induction n with
  | zero =>
    intro q q' _ hloop
    rw [setsizeLoop, Option.some.injEq] at hloop
    rw [← hloop]
    exact Spread.refl q
  | succ n ih =>
    intro q q' h hloop
    rw [setsizeLoop] at hloop
    split at hloop
    case isFalse =>
      rw [Option.some.injEq] at hloop
      rw [← hloop]
      exact Spread.refl q
    case isTrue hlt =>
    rw [h.count] at hlt
    have hsmall : (q.first.length + 1) * ttyinqDatasize < uintSize :=
      lt_of_le_of_lt (Nat.mul_le_mul_right ttyinqDatasize (by omega)) h.quota
    have h' : Queue.Ok ttyinqDatasize { q with nextBlock := q.nextBlock + 1 } :=
      ⟨h.nodup, fun b hb => Nat.lt_succ_of_lt (h.fresh b hb), h.count, h.order, h.head,
        h.room, h.last, h.quota, h.small⟩
    obtain ⟨q₁, hins, hkept, -, -⟩ := insertTail_ok inqView inqDatasize_pos h'
      (b := q.nextBlock) (fun hin => lt_irrefl _ (h.fresh _ hin)) (Nat.lt_succ_self _)
      hsmall
    rw [hins] at hloop
    have hspread : Spread { q with nextBlock := q.nextBlock + 1 } q₁ :=
      insertTail_spread h' hins
    exact Spread.trans hspread (ih q₁ q' hkept.ok hloop)

theorem setsize_spread (h : q.Ok ttyinqDatasize) {size : Nat} (hsize : SizeOk ttyinqDatasize size)
    (hset : setsize ttyinqDatasize q size = some q') : Spread q q' := by
  unfold SizeOk at hsize
  have hmul : howmany size ttyinqDatasize * ttyinqDatasize ≤ size + (ttyinqDatasize - 1) :=
    Nat.div_mul_le_self _ ttyinqDatasize
  have hquota : howmany size ttyinqDatasize % uintSize * ttyinqDatasize < uintSize :=
    calc howmany size ttyinqDatasize % uintSize * ttyinqDatasize
        ≤ howmany size ttyinqDatasize * ttyinqDatasize :=
          Nat.mul_le_mul_right ttyinqDatasize (Nat.mod_le _ _)
      _ < uintSize := by
          have := inqDatasize_pos
          omega
  have h' : Queue.Ok ttyinqDatasize { q with quota := howmany size ttyinqDatasize % uintSize } :=
    ⟨h.nodup, h.fresh, h.count, h.order, h.head, h.room, h.last, hquota, h.small⟩
  have hspread : Spread { q with quota := howmany size ttyinqDatasize % uintSize } q' :=
    setsizeLoop_spread _ _ q' h' hset
  exact hspread

/-- The remembered blocks are placed in a chain the old one is spread over. -/
theorem Placed.spread (h : Placed ti) (hspread : Spread ti.q q') (hok : Inq.Ok { ti with q := q' })
    : Placed { ti with q := q' } where
  ok := hok
  start := by
    intro hpos
    obtain ⟨b, hblock, hb⟩ := h.start hpos
    obtain ⟨i, -, hi, hkeep⟩ := hspread.2 _ b hb
    -- The line starts in the part in use.
    have hle := h.ok.le_end
    have hdiv : (ti.linestart - 1) / ttyinqDatasize ≤ (ti.q.endPos - 1) / ttyinqDatasize :=
      Nat.div_le_div_right (by omega)
    replace hpos : 0 < ti.linestart := hpos
    rw [hkeep (by omega) hdiv] at hi
    exact ⟨b, hblock, hi⟩
  reprint := by
    intro hpos
    obtain ⟨b, j, hblock, hj, hb⟩ := h.reprint hpos
    obtain ⟨i, hle, hi, -⟩ := hspread.2 j b hb
    exact ⟨b, i, hblock, le_trans hj hle, hi⟩

/-! ## Every operation keeps them placed -/

theorem readInqTurn_placed (h : Placed ti) {tib : Nat} {rest : List Nat}
    (hfirst : ti.q.first = tib :: rest) {cend : Nat} (hb : ti.q.beginPos < cend)
    (he : cend ≤ ti.linestart) (hD : cend ≤ ttyinqDatasize)
    (hturn : readInqTurn ti tib cend = some ti') : Placed ti' := by
  obtain ⟨ti₁, hturn₁, hok, -, -⟩ := readInqTurn_ok h.ok hfirst hb he hD
  obtain rfl : ti₁ = ti' := Option.some.inj (hturn₁.symm.trans hturn)
  unfold readInqTurn at hturn
  split at hturn
  case isTrue =>
    rw [Option.map_eq_some_iff] at hturn
    obtain ⟨q', hrec, rfl⟩ := hturn
    obtain ⟨hbeheaded, -, -⟩ := behead_ok inqDatasize_pos h.ok.queue hfirst
    obtain ⟨hend, hspread⟩ := recycle_spread hbeheaded hrec
    have htail : ∀ i b, ti.q.first[i + 1]? = some b → (removeHead ti.q).first[i]? = some b := by
      intro i b hib
      rw [hfirst, List.getElem?_cons_succ] at hib
      rw [removeHead, hfirst, List.tail_cons, hib]
    have hle := h.ok.le_end
    refine ⟨hok, fun hpos => ?_, fun hpos => ?_⟩
    · replace hpos : 0 < correctBlock ttyinqDatasize ti.linestart := hpos
      simp only [correctBlock_eq] at hpos hspread ⊢
      obtain ⟨b, hblock, hb⟩ := h.start (by omega)
      -- A position behind the first block loses as much as its block.
      have hdiv : (ti.linestart - 1) / ttyinqDatasize =
          (ti.linestart - ttyinqDatasize - 1) / ttyinqDatasize + 1 := by
        rw [← Nat.add_div_right _ inqDatasize_pos]
        congr 1
        omega
      rw [hdiv] at hb
      obtain ⟨i, -, hi, hkeep⟩ := hspread _ b (htail _ b hb)
      rw [hkeep (by omega) (Nat.div_le_div_right (by omega))] at hi
      exact ⟨b, hblock, hi⟩
    replace hpos : 0 < correctBlock ttyinqDatasize ti.reprint := hpos
    simp only [correctBlock_eq] at hpos hspread ⊢
    obtain ⟨b, j, hblock, hj, hb⟩ := h.reprint (by omega)
    have hdiv : (ti.reprint - 1) / ttyinqDatasize =
        (ti.reprint - ttyinqDatasize - 1) / ttyinqDatasize + 1 := by
      rw [← Nat.add_div_right _ inqDatasize_pos]
      congr 1
      omega
    rw [hdiv] at hj
    obtain ⟨j, rfl⟩ := Nat.exists_eq_succ_of_ne_zero (Nat.ne_zero_of_lt hj)
    obtain ⟨i, hle', hi, -⟩ := hspread j b (htail j b hb)
    exact ⟨b, i, hblock, le_trans (Nat.le_of_succ_le_succ hj) hle', hi⟩
  case isFalse =>
  split at hturn
  case isTrue =>
    rw [Option.some.injEq] at hturn
    subst hturn
    exact ⟨hok, h.start, h.reprint⟩
  case isFalse => cases hturn

theorem readInqLoop_placed (flen : Nat) (gone : Bool) : ∀ (fuel : Nat) (ti : Inq) (rlen : Nat),
    Placed ti → ∀ ti' out, readInqLoop flen gone fuel ti rlen = some (ti', out) → Placed ti' := by
  intro fuel
  induction fuel with
  | zero =>
    intro ti rlen h ti' out hrun
    cases rlen with
    | zero =>
      rw [readInqLoop, Option.some.injEq, Prod.mk.injEq] at hrun
      exact hrun.1 ▸ h
    | succ rlen =>
      rw [readInqLoop] at hrun
      cases hrun
  | succ fuel ih =>
    intro ti rlen h ti' out hrun
    cases rlen with
    | zero =>
      rw [readInqLoop, Option.some.injEq, Prod.mk.injEq] at hrun
      exact hrun.1 ▸ h
    | succ rlen =>
      by_cases heq : ti.q.beginPos = ti.linestart
      · rw [readInqLoop, if_pos heq, Option.some.injEq, Prod.mk.injEq] at hrun
        exact hrun.1 ▸ h
      obtain ⟨tib, rest, cend, hfirst, hcend, hb, he, hD⟩ := turn_bounds h.ok heq rlen
      rw [readInqLoop, if_neg heq, hfirst] at hrun
      dsimp only at hrun
      rw [hcend] at hrun
      split at hrun
      case isFalse => cases hrun
      case isTrue =>
      cases hturn : readInqTurn ti tib cend with
      | none =>
        rw [hturn] at hrun
        cases hrun
      | some ti₁ =>
        have h₁ := readInqTurn_placed h hfirst hb he hD hturn
        rw [hturn] at hrun
        dsimp only at hrun
        split at hrun
        case isTrue =>
          rw [Option.some.injEq, Prod.mk.injEq] at hrun
          exact hrun.1 ▸ h₁
        case isFalse =>
        rw [Option.map_eq_some_iff] at hrun
        obtain ⟨⟨ti₂, out₂⟩, hrest, hout⟩ := hrun
        rw [Prod.mk.injEq] at hout
        exact hout.1 ▸ ih ti₁ _ h₁ ti₂ out₂ hrest

theorem unputchar_placed (h : Placed ti) (hok : ti'.Ok) (hrun : ttyinqUnputchar ti = some ti') :
    Placed ti' := by
  -- Only the end and the last block change.
  have hsame : ti'.q.first = ti.q.first ∧ ti'.linestart = ti.linestart ∧
      ti'.reprint = ti.reprint ∧ ti'.startblock = ti.startblock ∧
      ti'.reprintblock = ti.reprintblock := by
    unfold ttyinqUnputchar at hrun
    split at hrun
    case isFalse => cases hrun
    case isTrue =>
    dsimp only at hrun
    split at hrun
    case isFalse =>
      rw [Option.some.injEq] at hrun
      subst hrun
      exact ⟨rfl, rfl, rfl, rfl, rfl⟩
    case isTrue =>
    split at hrun
    · cases hrun
    split at hrun
    case isFalse => cases hrun
    case isTrue =>
    split at hrun
    case isFalse => cases hrun
    case isTrue =>
      rw [Option.some.injEq] at hrun
      subst hrun
      exact ⟨rfl, rfl, rfl, rfl, rfl⟩
  obtain ⟨hfirst, hline, hreprint, hstart, hblock⟩ := hsame
  exact ⟨hok, by rw [hfirst, hline, hstart]; exact h.start,
    by rw [hfirst, hreprint, hblock]; exact h.reprint⟩

/-- The block of the end is that of the last byte. -/
theorem Placed.atEnd (h : Placed ti) (hpos : 0 < ti.q.endPos) :
    ∃ b, ti.q.last = some b ∧ ti.q.first[(ti.q.endPos - 1) / ttyinqDatasize]? = some b :=
  h.ok.queue.last hpos

/-- A block at the place of its byte. -/
theorem reprint_at {first : List Nat} {pos : Nat} {block : Option Nat}
    (h : ∃ b, block = some b ∧ first[(pos - 1) / ttyinqDatasize]? = some b) :
    ∃ b j, block = some b ∧ (pos - 1) / ttyinqDatasize ≤ j ∧ first[j]? = some b := by
  obtain ⟨b, hblock, hb⟩ := h
  exact ⟨b, _, hblock, le_rfl, hb⟩

theorem exec_placed {op : InOp} {out : Out} (h : Placed ti) (hsize : op.SizeOk)
    (hexec : ti.exec op = some (ti', out)) : Placed ti' := by
  have hok := (exec_spec h.ok hsize hexec).1
  cases op with
  | setsize size =>
    rw [Inq.exec, ttyinqSetsize, Option.map_map, Option.map_eq_some_iff] at hexec
    obtain ⟨q', hset, ⟨⟩⟩ := hexec
    exact h.spread (setsize_spread h.ok.queue hsize hset) hok
  | write buf quote =>
    rw [Inq.exec, ttyinqWrite, Option.map_map, Option.map_eq_some_iff] at hexec
    obtain ⟨r, hwrite, ⟨⟩⟩ := hexec
    obtain ⟨q', n, hrun, -, hwrote⟩ :=
      write_ok (inqStore_stores quote) inqDatasize_pos h.ok.queue buf
    obtain rfl : (q', n) = r := Option.some.inj (hrun.symm.trans hwrite)
    exact ⟨hok, by rw [hwrote.first]; exact h.start, by rw [hwrote.first]; exact h.reprint⟩
  | writeNofrag buf quote =>
    rw [Inq.exec, ttyinqWriteNofrag, Option.map_map, Option.map_eq_some_iff] at hexec
    obtain ⟨r, hwrite, ⟨⟩⟩ := hexec
    rcases writeNofrag_ok (inqStore_stores quote) inqDatasize_pos h.ok.queue buf with
      ⟨-, hrun⟩ | ⟨q', hrun, hwrote⟩
    · obtain rfl : (ti.q, (-1 : Int)) = r := Option.some.inj (hrun.symm.trans hwrite)
      exact ⟨hok, h.start, h.reprint⟩
    · obtain rfl : (q', (0 : Int)) = r := Option.some.inj (hrun.symm.trans hwrite)
      exact ⟨hok, by rw [hwrote.first]; exact h.start, by rw [hwrote.first]; exact h.reprint⟩
  | unputchar =>
    rw [Inq.exec, Option.map_eq_some_iff] at hexec
    obtain ⟨t, hrun, ⟨⟩⟩ := hexec
    exact unputchar_placed h hok hrun
  | canonicalize =>
    rw [Inq.exec, Option.some.injEq, Prod.mk.injEq] at hexec
    obtain ⟨rfl, -⟩ := hexec
    exact ⟨hok, h.atEnd, fun hpos => reprint_at (h.atEnd hpos)⟩
  | flush secure =>
    rw [Inq.exec, Option.some.injEq, Prod.mk.injEq] at hexec
    obtain ⟨rfl, -⟩ := hexec
    exact ⟨hok, fun hpos => absurd hpos (lt_irrefl 0),
      fun hpos => absurd hpos (lt_irrefl 0)⟩
  | peekchar =>
    rw [Inq.exec, Option.map_eq_some_iff] at hexec
    obtain ⟨c, -, ⟨⟩⟩ := hexec
    exact h
  | readUio rlen flen gone =>
    rw [Inq.exec, Option.map_eq_some_iff] at hexec
    obtain ⟨⟨t, bytes⟩, hrun, ⟨⟩⟩ := hexec
    exact readInqLoop_placed flen gone rlen ti rlen h _ _ hrun
  | reprintposSet =>
    rw [Inq.exec, Option.some.injEq, Prod.mk.injEq] at hexec
    obtain ⟨rfl, -⟩ := hexec
    exact ⟨hok, h.start, fun hpos => reprint_at (h.atEnd hpos)⟩
  | reprintposReset =>
    rw [Inq.exec, Option.some.injEq, Prod.mk.injEq] at hexec
    obtain ⟨rfl, -⟩ := hexec
    exact ⟨hok, h.start, fun hpos => reprint_at (h.start hpos)⟩

theorem freeLoop_eq : ∀ (blocks : List Nat) (q : Queue InqMem), q.first = blocks →
    freeLoop blocks q = { q with first := [], nblocks := q.nblocks - blocks.length } := by
  intro blocks
  induction blocks with
  | nil =>
    intro q hfirst
    rw [freeLoop, List.length_nil, Nat.sub_zero, ← hfirst]
  | cons b rest ih =>
    intro q hfirst
    rw [freeLoop, ih _ (by rw [removeHead, hfirst, List.tail_cons]), removeHead]
    simp only [Queue.mk.injEq, and_self, and_true, true_and]
    rw [List.length_cons, Nat.sub_sub, Nat.add_comm]

/-- After the blocks have been freed both positions are 0. -/
theorem free_placed (h : Placed ti) {secure : Bool} (hfree : ttyinqFree ti secure = some ti') :
    Placed ti' := by
  have hloop := freeLoop_eq (ttyinqFlush ti secure).q.first
    { (ttyinqFlush ti secure).q with quota := 0 } rfl
  unfold ttyinqFree at hfree
  dsimp only at hfree
  rw [hloop] at hfree
  have hcount : (ttyinqFlush ti secure).q.nblocks - (ttyinqFlush ti secure).q.first.length = 0 := by
    rw [(flush_spec h.ok secure).1.queue.count, Nat.sub_self]
  rw [if_pos hcount, Option.some.injEq] at hfree
  subst hfree
  have hsmall : 0 * ttyinqDatasize < uintSize := by decide
  refine ⟨⟨⟨List.nodup_nil, fun b hb => absurd hb List.not_mem_nil, hcount, Nat.le_refl 0,
    inqDatasize_pos, zero_le, fun hpos => absurd hpos (lt_irrefl 0), hsmall, hsmall⟩,
    Nat.le_refl 0, Nat.le_refl 0⟩, fun hpos => absurd hpos (lt_irrefl 0),
    fun hpos => absurd hpos (lt_irrefl 0)⟩

/-! ## Runs -/

theorem run_placed (mem : InqMem) (ops : List SessionOp) (hsize : ∀ op ∈ ops, op.SizeOk)
    (hrun : runOps Inq.nextOf (Inq.init mem) ops = some ti) : Placed ti := by
  have hinit : Placed (Inq.init mem) :=
    ⟨Inq.init_ok mem, fun hpos => absurd hpos (lt_irrefl 0),
      fun hpos => absurd hpos (lt_irrefl 0)⟩
  refine runOps_invariant_of Inq.nextOf (fun _ op => op.SizeOk) Placed ?_ ops (Inq.init mem) ti
    hinit (everyStep_of_mem Inq.nextOf SessionOp.SizeOk ops (Inq.init mem) hsize) hrun
  intro t op t' h hop hnext
  cases op with
  | inq op =>
    rw [Inq.nextOf, Inq.next, Option.map_eq_some_iff] at hnext
    obtain ⟨⟨t₁, out⟩, hexec, rfl⟩ := hnext
    exact exec_placed h hop hexec
  | free secure => exact free_placed h hnext

/-- The loop over the line starts at the start of the line, or one block before it. -/
theorem startPos_linestart (h : Placed ti) : startPos ti ti.linestart ti.startblock =
      if 0 < ti.linestart ∧ ti.linestart % ttyinqDatasize = 0 then ti.linestart - ttyinqDatasize
      else ti.linestart := by
  unfold startPos
  by_cases hzero : ti.linestart = 0
  · rw [if_pos hzero, if_neg (by omega), hzero]
  obtain ⟨b, hblock, hb⟩ := h.start (Nat.pos_of_ne_zero hzero)
  have hidx : ti.q.first.idxOf b = (ti.linestart - 1) / ttyinqDatasize := by
    have hmem := List.idxOf_lt_length_of_mem (List.mem_of_getElem? hb)
    refine (List.getElem?_inj hmem h.ok.queue.nodup).mp ?_
    rw [hb, List.getElem?_eq_getElem hmem, List.getElem_idxOf]
  rw [if_neg hzero, hblock]
  simp only
  rw [hidx]
  unfold ttyinqDatasize
  split <;> omega

/-- In every state of every run, an iteration from the start of the line makes the
    calls for the bytes of the line exactly if the line is empty, or it does not start
    a later block and the chain is not full, or it starts a later block and the bytes
    from one block before it on are the same. An iteration from the position of a
    reprint does so exactly if it is `Faithful`. -/
theorem lineIterate_faithful (mem : InqMem) (ops : List SessionOp) (hsize : ∀ op ∈ ops, op.SizeOk)
    (ti : Inq) (hrun : runOps Inq.nextOf (Inq.init mem) ops = some ti) :
    (ttyinqLineIterateFromLinestart ti = some ti.line ↔ ti.linestart = ti.q.endPos ∨
      (ti.linestart = 0 ∨ ti.linestart % ttyinqDatasize ≠ 0) ∧
        ti.q.endPos < ti.q.nblocks * ttyinqDatasize ∨
      0 < ti.linestart ∧ ti.linestart % ttyinqDatasize = 0 ∧
        window ti.cells (ti.linestart - ttyinqDatasize) (ti.q.endPos - ttyinqDatasize) = ti.line) ∧
    (ttyinqLineIterateFromReprintpos ti = some ti.reprintLine ↔
      Faithful ti ti.reprint ti.reprintblock) := by
  have h := run_placed mem ops hsize hrun
  constructor
  · have hblock : 0 < ti.linestart → ∃ b, ti.startblock = some b ∧ b ∈ ti.q.first := by
      intro hpos
      obtain ⟨b, hstart, hb⟩ := h.start hpos
      exact ⟨b, hstart, List.mem_of_getElem? hb⟩
    have hle := h.ok.le_end
    have hroom := h.ok.queue.room
    have hDpos := inqDatasize_pos
    refine (lineIterate_iff h.ok hblock).trans ?_
    rw [Faithful, startPos_linestart h, Inq.line, h.ok.queue.count]
    by_cases hempty : ti.linestart = ti.q.endPos
    · exact iff_of_true (.inl (by omega)) (.inl hempty)
    by_cases halign : 0 < ti.linestart ∧ ti.linestart % ttyinqDatasize = 0
    · have hge : ttyinqDatasize ≤ ti.linestart :=
        Nat.le_of_dvd halign.1 (Nat.dvd_of_mod_eq_zero halign.2)
      have hend : ti.linestart - ttyinqDatasize + (ti.q.endPos - ti.linestart) =
          ti.q.endPos - ttyinqDatasize := by omega
      rw [if_pos halign, hend]
      constructor
      · rintro (hout | ⟨-, hsame⟩)
        · omega
        · exact .inr (.inr ⟨halign.1, halign.2, hsame⟩)
      rintro (heq | ⟨hor, -⟩ | ⟨-, -, hsame⟩)
      · exact absurd heq hempty
      · rcases hor with hzero | hne
        · omega
        · exact absurd halign.2 hne
      · exact .inr ⟨by omega, hsame⟩
    have hend : ti.linestart + (ti.q.endPos - ti.linestart) = ti.q.endPos := by omega
    rw [if_neg halign, hend]
    constructor
    · rintro (hout | ⟨hlt, -⟩)
      · omega
      · exact .inr (.inl ⟨by omega, hlt⟩)
    rintro (heq | ⟨-, hlt⟩ | ⟨hpos, hmod, -⟩)
    · exact absurd heq hempty
    · exact .inr ⟨hlt, rfl⟩
    · exact absurd ⟨hpos, hmod⟩ halign
  · refine lineIterate_iff h.ok (fun hpos => ?_)
    obtain ⟨b, j, hblock, -, hb⟩ := h.reprint hpos
    exact ⟨b, hblock, List.mem_of_getElem? hb⟩

/-- A line of one block has been finished, and two more bytes have been typed. -/
def shiftedOps : List SessionOp :=
  [.inq (.setsize 256), .inq (.write ((List.range 128).map UInt8.ofNat) false),
    .inq .canonicalize, .inq (.write [65, 66] false)]

/-- A chain of one block that is full. -/
def fullOps : List SessionOp :=
  [.inq (.setsize 128), .inq (.write ((List.range 128).map UInt8.ofNat) false)]

theorem lineIterate_faithful_full : (∀ op ∈ fullOps, op.SizeOk) ∧
    ∃ ti, runOps Inq.nextOf (Inq.init ⟨fun _ _ => 0, fun _ _ => 0⟩) fullOps = some ti ∧
      (ttyinqLineIterateFromReprintpos ti = some ti.reprintLine ↔
        Faithful ti ti.reprint ti.reprintblock) := by
  have hsize : ∀ op ∈ fullOps, op.SizeOk := by
    simp [fullOps, SessionOp.SizeOk, InOp.SizeOk, SizeOk, ttyinqDatasize, uintSize]
  have hsome : (runOps Inq.nextOf (Inq.init ⟨fun _ _ => 0, fun _ _ => 0⟩)
      fullOps).isSome = true := by
    decide +kernel
  obtain ⟨ti, hrun⟩ := Option.isSome_iff_exists.mp hsome
  exact ⟨hsize, ti, hrun, (lineIterate_faithful _ fullOps hsize ti hrun).2⟩

/-- The two typed bytes are iterated as the first two of the line before them, and
    the iteration over the full chain reaches a block that is not there. -/
theorem lineIterate_unfaithful :
    (∃ ti, runOps Inq.nextOf (Inq.init ⟨fun _ _ => 0, fun _ _ => 0⟩) shiftedOps = some ti ∧
      ti.line = [(65, false), (66, false)] ∧
      ttyinqLineIterateFromLinestart ti = some [(0, false), (1, false)] ∧
      ttyinqLineIterateFromReprintpos ti = some [(0, false), (1, false)]) ∧
    ∃ ti, runOps Inq.nextOf (Inq.init ⟨fun _ _ => 0, fun _ _ => 0⟩) fullOps = some ti ∧
      ti.line.length = 128 ∧ ttyinqLineIterateFromLinestart ti = none := by
  have hshifted : ((runOps Inq.nextOf (Inq.init ⟨fun _ _ => 0, fun _ _ => 0⟩) shiftedOps).map
      (fun ti => decide (ti.line = [(65, false), (66, false)] ∧
        ttyinqLineIterateFromLinestart ti = some [(0, false), (1, false)] ∧
        ttyinqLineIterateFromReprintpos ti = some [(0, false), (1, false)]))) = some true := by
    decide +kernel
  have hfull : ((runOps Inq.nextOf (Inq.init ⟨fun _ _ => 0, fun _ _ => 0⟩) fullOps).map
      (fun ti => decide (ti.line.length = 128 ∧
        ttyinqLineIterateFromLinestart ti = none))) = some true := by
    decide +kernel
  obtain ⟨ti₁, hrun₁, hfacts₁⟩ := Option.map_eq_some_iff.mp hshifted
  obtain ⟨ti₂, hrun₂, hfacts₂⟩ := Option.map_eq_some_iff.mp hfull
  exact ⟨⟨ti₁, hrun₁, of_decide_eq_true hfacts₁⟩, ti₂, hrun₂, of_decide_eq_true hfacts₂⟩

end FreeBSDKern.Tty
