import FreeBSDKern.Lib.Run
import FreeBSDKern.Sockbuf.Model

/-!
# The Send Pointer

A stream keeps a pointer to the mbuf that `sbsndptr` left off at, with the offset of that
mbuf, so that the next call need not start at the front. The buffer is a list of mbufs
here, as it has one record only. Those from `sb_fnrdy` on are not available, and are kept
apart from the others.

The pointer is where the offset says it is through every appending, cutting and sending,
and what is read through it is what is read from the front (`sndptr_transparent`). The
offset is not larger than what is available, so it is never cut short.

Assertions are not part of the model. `none` is a panic, a pointer that leads nowhere, or
a cut into what is not available.

## Main definitions

* `compress`, `cutLoop`, `walk`: One mbuf of `sbcompress`, and the loops.
* `sbsndptr`, `sbsndmbuf`: The two ways to find an offset.
* `Pointed`: The pointer and its offset agree.

## Theorems

* `walk_spec`: The loop ends in the mbuf of the offset.
* `sndptr_transparent`: What is found in any run.
-/

namespace FreeBSDKern.Sockbuf

namespace Snd

open Lib

structure Link extends Mbuf where
  id : Nat
  /-- `M_NOTREADY`. -/
  notready : Bool

structure Stream where
  avail : List Link
  later : List Link
  acc : BitVec 32
  sndptr : Option Nat
  sndptroff : BitVec 32
  fresh : Nat

def start : Stream := ⟨[], [], 0, none, 0, 0⟩

def Stream.chain (s : Stream) : List Link := s.avail ++ s.later

def bytes (c : List Link) : List (BitVec 8) := c.flatMap (fun l => l.data)

section Code

def sballoc (s : Stream) (m : Link) : Stream :=
  if s.later = [] ∧ m.notready = false then
    { s with avail := s.avail ++ [m], acc := s.acc + BitVec.ofNat 32 m.data.length }
  else { s with later := s.later ++ [m] }

/-- The condition for the data of `m` to go behind that of `n`. -/
def coalesces (nocoalesce : Bool) (shared : Nat → Bool) (n m : Link) : Bool :=
  let n' := { n.toMbuf with shared := shared n.id }
  !n.eor && n'.writable && !nocoalesce && !m.notready && !n.notready &&
    m.data.length ≤ mclbytes / 4 && m.data.length ≤ n'.trailingspace && n.type = m.type

def growLast (c : List Link) (m : Link) : List Link :=
  c.dropLast ++ (c.getLast?.map (fun n =>
    { n with data := n.data ++ m.data, room := n.room - m.data.length })).toList

def coalesce (s : Stream) (m : Link) : Stream :=
  if s.later = [] then
    { s with avail := growLast s.avail m, acc := s.acc + BitVec.ofNat 32 m.data.length }
  else { s with later := growLast s.later m }

/-- One mbuf without a mark. -/
def compress (nocoalesce : Bool) (shared : Nat → Bool) (s : Stream) (m : Link) : Stream :=
  if m.data = [] then s
  else if s.chain.getLast?.any (fun n => coalesces nocoalesce shared n m) then coalesce s m
  else sballoc s m

/-- Whether `M_NOTREADY` is kept is in the flags, and whose storage is shared is so at the
    time of the call. -/
def sbappendstreamLocked (nocoalesce : Bool) (shared : Nat → Bool) (flags : Bool) :
    Stream → List (Mbuf × Bool) → Stream
  | s, [] => s
  | s, (m, notready) :: rest =>
    sbappendstreamLocked nocoalesce shared flags
      { compress nocoalesce shared s ⟨demote m, s.fresh, notready && flags⟩ with
        fresh := s.fresh + 1 } rest

/-- The first mbuf is freed. -/
def sbfree (s : Stream) (m : Link) (rest : List Link) : Stream :=
  let s := { s with avail := rest, acc := s.acc - BitVec.ofNat 32 m.data.length }
  let s := if s.sndptr = some m.id then { s with sndptr := none, sndptroff := 0 } else s
  if s.sndptroff ≠ 0 then { s with sndptroff := s.sndptroff - BitVec.ofNat 32 m.data.length }
  else s

/-- The first `len` bytes of the first mbuf are cut off. -/
def cutPart (s : Stream) (m : Link) (rest : List Link) (len : Nat) : Stream :=
  { s with
    avail := { m with data := m.data.drop len } :: rest
    acc := s.acc - BitVec.ofNat 32 len
    sndptroff := if s.sndptroff ≠ 0 then s.sndptroff - BitVec.ofNat 32 len else s.sndptroff }

/-- The first loop of `sbcut_internal`, with the mbufs that are available. -/
def cutLoop (s : Stream) : List Link → Int → Option Stream
  | [], len => if 0 < len then none else some s
  | m :: rest, len =>
    if 0 < len then
      if len < m.data.length then some (cutPart s m rest len.toNat)
      else cutLoop (sbfree s m rest) rest (len - m.data.length)
    else some s

/-- The second loop. -/
def dropEmpty (s : Stream) : List Link → Option Stream
  | [] => if s.later.head?.any (fun m => m.data = []) then none else some s
  | m :: rest => if m.data = [] then dropEmpty (sbfree s m rest) rest else some s

def sbdropLocked (s : Stream) (len : Int) : Option Stream :=
  (cutLoop s s.avail len).bind (fun s => dropEmpty s s.avail)

/-- The mbufs from a pointer on. -/
def behind (c : List Link) (id : Nat) : List Link := c.dropWhile (fun l => l.id ≠ id)

/-- The loop that goes on by `off`, with the offset of the mbuf. -/
def walk : List Link → BitVec 32 → Nat → List Link × BitVec 32 × Nat
  | [], sndptroff, off => ([], sndptroff, off)
  | m :: rest, sndptroff, off =>
    if 0 < off ∧ m.data.length ≤ off then
      walk rest (sndptroff + BitVec.ofNat 32 m.data.length) (off - m.data.length)
    else (m :: rest, sndptroff, off)

/-- The mbuf that is returned comes first in `ret`. -/
def sndWalk (s : Stream) (ret : List Link) (sndptroff : BitVec 32) (moff off len : Nat) :
    Option (Stream × Nat × Nat) :=
  match ret with
  | [] => none
  | r :: _ =>
    let w := walk ret sndptroff (off - sndptroff.toNat + len - 1)
    if 0 < w.2.2 ∧ w.1 = [] then none
    else some ({ s with sndptr := w.1.head?.map Link.id, sndptroff := w.2.1 }, r.id, moff)

def sbsndptr (s : Stream) (off len : Nat) : Option (Stream × Nat × Nat) :=
  if off < s.sndptroff.toNat then s.chain.head?.map (fun mb => (s, mb.id, off))
  else
    match s.sndptr.elim s.chain (behind s.chain) with
    | [] => none
    | m :: rest =>
      if off - s.sndptroff.toNat = m.data.length then
        sndWalk s rest (s.sndptroff + BitVec.ofNat 32 m.data.length) 0 off len
      else sndWalk s (m :: rest) s.sndptroff (off - s.sndptroff.toNat) off len

def sbsndmbuf (s : Stream) (off : Nat) : Option (Nat × Nat) :=
  let w := if s.sndptr = none ∨ off < s.sndptroff.toNat then walk s.chain 0 off
    else walk (s.sndptr.elim [] (behind s.chain)) 0 (off - s.sndptroff.toNat)
  w.1.head?.map (fun m => (m.id, w.2.2))

inductive Op where
  | sbappendstream (nocoalesce : Bool) (shared : Nat → Bool) (flags : Bool)
      (m : List (Mbuf × Bool))
  | sbdrop (len : Int)
  | sbsndptr (off len : Nat)

def step (s : Stream) : Op → Option Stream
  | .sbappendstream nocoalesce shared flags m =>
    some (sbappendstreamLocked nocoalesce shared flags s m)
  | .sbdrop len => sbdropLocked s len
  | .sbsndptr off len => (sbsndptr s off len).map (fun r => r.1)

def Allowed (s : Stream) : Op → Prop
  | .sbappendstream _ _ _ m => m ≠ []
  | .sbdrop len => len ≤ s.acc.toNat
  | .sbsndptr off len => 1 ≤ len ∧ off + len ≤ s.acc.toNat

instance (s : Stream) (o : Op) : Decidable (Allowed s o) := by
  unfold Allowed
  split <;> infer_instance

end Code

variable {c c' init pre post : List Link} {l : Link} {fresh : Nat} {ptr : Option Nat}
  {off : BitVec 32} {s : Stream}

/-- The offset is that of the mbuf that is pointed to, or zero if there is none. -/
def Pointed (c : List Link) (ptr : Option Nat) (off : BitVec 32) : Prop :=
  (ptr = none ∧ off = 0) ∨
    ∃ pre l post, c = pre ++ l :: post ∧ ptr = some l.id ∧ off.toNat = (bytes pre).length

/-- The mbufs are different ones with data, and the pointer is in order. -/
structure Sound (c : List Link) (fresh : Nat) (ptr : Option Nat) (off : BitVec 32) : Prop where
  nodup : (c.map Link.id).Nodup
  below : ∀ l ∈ c, l.id < fresh
  full : ∀ l ∈ c, l.data ≠ []
  pointed : Pointed c ptr off

structure Inv (s : Stream) : Prop where
  sound : Sound s.chain s.fresh s.sndptr s.sndptroff
  acc : s.acc = BitVec.ofNat 32 (bytes s.avail).length

@[simp] theorem bytes_append (c c' : List Link) : bytes (c ++ c') = bytes c ++ bytes c' :=
  List.flatMap_append

@[simp] theorem bytes_cons (l : Link) (c : List Link) : bytes (l :: c) = l.data ++ bytes c := rfl

@[simp] theorem bytes_nil : bytes [] = [] := rfl

theorem Inv.acc_le (h : Inv s) : s.acc.toNat ≤ (bytes s.avail).length := by
  rw [h.acc, BitVec.toNat_ofNat]
  exact Nat.mod_le _ _

section Append

theorem Sound.snoc (h : Sound c fresh ptr off) (hid : l.id = fresh) (hl : l.data ≠ []) :
    Sound (c ++ [l]) (fresh + 1) ptr off where
  nodup := by
    rw [List.map_append, List.nodup_append]
    refine ⟨h.nodup, by simp, fun a ha b hb => ?_⟩
    obtain ⟨k, hk, rfl⟩ := List.mem_map.mp ha
    have := h.below k hk
    simp only [List.map_cons, List.map_nil, List.mem_singleton] at hb
    omega
  below := by
    have := h.below
    grind
  full := by
    have := h.full
    grind
  pointed := by
    obtain hnone | ⟨pre, m, post, rfl, hp⟩ := h.pointed
    · exact .inl hnone
    · exact .inr ⟨pre, m, post ++ [l], by simp, hp⟩

theorem Sound.mono (h : Sound c fresh ptr off) : Sound c (fresh + 1) ptr off :=
  ⟨h.nodup, fun l hl => Nat.lt_succ_of_lt (h.below l hl), h.full, h.pointed⟩

/-- The last mbuf has its place and its number when data is added to it. -/
theorem Sound.grow (h : Sound (init ++ [l]) fresh ptr off) (l' : Link) (hid : l'.id = l.id)
    (hl : l'.data ≠ []) : Sound (init ++ [l']) fresh ptr off where
  nodup := by
    have := h.nodup
    rwa [List.map_append, List.map_singleton, ← hid, ← List.map_singleton,
      ← List.map_append] at this
  below := by
    have := h.below
    grind
  full := by
    have := h.full
    grind
  pointed := by
    obtain hnone | ⟨pre, m, post, hc, hp⟩ := h.pointed
    · exact .inl hnone
    rcases List.eq_nil_or_concat post with rfl | ⟨post, z, rfl⟩
    · obtain ⟨rfl, hm⟩ := List.append_inj' hc rfl
      obtain rfl := List.singleton_inj.mp hm
      exact .inr ⟨init, l', [], rfl, hid ▸ hp⟩
    rw [List.concat_eq_append, ← List.cons_append, ← List.append_assoc] at hc
    obtain ⟨rfl, -⟩ := List.append_inj' hc rfl
    exact .inr ⟨pre, m, post ++ [l'], by simp, hp⟩

theorem growLast_append (hc : c' ≠ []) (m : Link) : growLast (c ++ c') m = c ++ growLast c' m := by
  obtain ⟨init, z, rfl⟩ := List.eq_nil_or_concat c' |>.resolve_left hc
  simp [growLast]

theorem Inv.compress (h : Inv s) (nocoalesce : Bool) (shared : Nat → Bool) {m : Link}
    (hid : m.id = s.fresh) :
    Inv { Snd.compress nocoalesce shared s m with fresh := s.fresh + 1 } := by
  unfold Snd.compress
  split
  · exact ⟨h.sound.mono, h.acc⟩
  rename_i hm
  split
  · rename_i hlast
    obtain ⟨n, hn, -⟩ := Option.any_eq_true _ _ |>.mp hlast
    obtain ⟨init, hc⟩ := List.getLast?_eq_some_iff.mp hn
    have hg : growLast (init ++ [n]) m = init ++
        [{ n with data := n.data ++ m.data, room := n.room - m.data.length }] := by simp [growLast]
    have hs := h.sound
    rw [hc] at hs
    have hgrow := (hs.grow { n with data := n.data ++ m.data, room := n.room - m.data.length } rfl
      (by simp [hm])).mono
    rw [← hg, ← hc] at hgrow
    unfold coalesce
    split
    · rename_i hl
      have ha : s.avail = init ++ [n] := by rw [← hc, Stream.chain, hl, List.append_nil]
      refine ⟨by rwa [Stream.chain, hl, List.append_nil] at hgrow ⊢, ?_⟩
      dsimp only
      rw [h.acc, ha, hg, ← BitVec.ofNat_add]
      simp [Nat.add_assoc]
    · rename_i hl
      exact ⟨by rwa [Stream.chain, growLast_append hl] at hgrow, h.acc⟩
  have hsnoc := h.sound.snoc hid hm
  unfold sballoc
  split
  · rename_i hl
    refine ⟨by rwa [Stream.chain, hl.1, List.append_nil] at hsnoc ⊢, ?_⟩
    dsimp only
    rw [h.acc, ← BitVec.ofNat_add]
    simp
  · exact ⟨by rwa [Stream.chain, List.append_assoc] at hsnoc, h.acc⟩

theorem Inv.append (nocoalesce : Bool) (shared : Nat → Bool) (flags : Bool)
    (ms : List (Mbuf × Bool)) :
    ∀ {s : Stream}, Inv s → Inv (sbappendstreamLocked nocoalesce shared flags s ms) := by
  induction ms with
  | nil => exact id
  | cons m ms ih => exact fun h => ih (h.compress nocoalesce shared rfl)

end Append

section Cut

theorem sub_toNat {b : BitVec 32} {k : Nat} (h : k ≤ b.toNat) :
    (b - BitVec.ofNat 32 k).toNat = b.toNat - k := by
  rw [BitVec.toNat_sub, BitVec.toNat_ofNat]
  omega

/-- The pointer is nowhere, at the first mbuf, or farther behind than its data. -/
theorem Pointed.cases {m : Link} (h : Pointed (m :: c) ptr off) (hm : m.data ≠ []) :
    ((ptr = none ∨ ptr = some m.id) ∧ off = 0) ∨
      off ≠ 0 ∧ ∃ pre l post, c = pre ++ l :: post ∧ ptr = some l.id ∧
        off.toNat = m.data.length + (bytes pre).length := by
  obtain ⟨hp, ho⟩ | ⟨pre, l, post, hc, hp, ho⟩ := h
  · exact .inl ⟨.inl hp, ho⟩
  cases pre with
  | nil =>
    obtain ⟨rfl, -⟩ := List.cons.inj hc
    exact .inl ⟨.inr hp, BitVec.eq_of_toNat_eq ho⟩
  | cons m' pre =>
    obtain ⟨rfl, hrest⟩ := List.cons.inj hc
    rw [bytes_cons, List.length_append] at ho
    have hpos := List.length_pos_iff.mpr hm
    refine .inr ⟨fun hz => ?_, pre, l, post, hrest, hp, ho⟩
    rw [hz] at ho
    exact absurd ho (by simp; omega)

/-- Taking away a mbuf at the front moves the pointer along, or clears it. -/
theorem Inv.free {m : Link} (h : Inv s) (ha : s.avail = m :: c) : Inv (sbfree s m c) := by
  obtain ⟨avail, later, acc, ptr, off, fresh⟩ := s
  obtain rfl : avail = m :: c := ha
  obtain ⟨⟨hnodup, hbelow, hfull, hptr⟩, hacc⟩ := h
  simp only [Stream.chain, List.cons_append, List.map_cons, List.nodup_cons,
    List.forall_mem_cons] at hnodup hbelow hfull hptr hacc
  have hacc' : acc - BitVec.ofNat 32 m.data.length = BitVec.ofNat 32 (bytes c).length := by
    rw [hacc, bytes_cons, List.length_append, BitVec.ofNat_add, BitVec.add_comm,
      BitVec.add_sub_cancel]
  obtain ⟨hp, rfl⟩ | ⟨hoff, pre, l, post, hc, rfl, ho⟩ := hptr.cases hfull.1
  · have hfree : sbfree ⟨m :: c, later, acc, ptr, 0, fresh⟩ m c =
        ⟨c, later, acc - BitVec.ofNat 32 m.data.length, none, 0, fresh⟩ := by
      obtain rfl | rfl := hp <;> simp [sbfree]
    rw [hfree]
    exact ⟨⟨hnodup.2, hbelow.2, hfull.2, .inl ⟨rfl, rfl⟩⟩, hacc'⟩
  have hne : l.id ≠ m.id := fun heq => hnodup.1 (by rw [hc, ← heq]; simp)
  simp only [sbfree, Option.some.injEq, hne, if_false, if_pos hoff]
  refine ⟨⟨hnodup.2, hbelow.2, hfull.2, .inr ⟨pre, l, post, hc, rfl, ?_⟩⟩, hacc'⟩
  dsimp only
  rw [sub_toNat (by omega)]
  omega

theorem Inv.part {m : Link} (h : Inv s) (ha : s.avail = m :: c) {k : Nat}
    (hk : k < m.data.length) : Inv (cutPart s m c k) := by
  obtain ⟨avail, later, acc, ptr, off, fresh⟩ := s
  obtain rfl : avail = m :: c := ha
  obtain ⟨⟨hnodup, hbelow, hfull, hptr⟩, hacc⟩ := h
  simp only [Stream.chain, List.cons_append, List.forall_mem_cons] at hnodup hbelow hfull hptr
  refine ⟨⟨hnodup, List.forall_mem_cons.mpr hbelow,
    List.forall_mem_cons.mpr ⟨by simpa using hk, hfull.2⟩, ?_⟩, ?_⟩
  · obtain ⟨hp, rfl⟩ | ⟨hoff, pre, l, post, hc, rfl, ho⟩ := hptr.cases hfull.1
    · obtain rfl | rfl := hp
      · exact .inl ⟨rfl, rfl⟩
      · exact .inr ⟨[], _, c ++ later, rfl, rfl, rfl⟩
    refine .inr ⟨{ m with data := m.data.drop k } :: pre, l, post, congrArg _ hc, rfl, ?_⟩
    rw [cutPart, if_pos hoff, sub_toNat (by dsimp only; omega), bytes_cons, List.length_append,
      List.length_drop]
    dsimp only
    omega
  have hsum : (bytes (m :: c)).length =
      (bytes ({ m with data := m.data.drop k } :: c)).length + k := by
    simp
    omega
  dsimp only at hacc
  rw [cutPart, hacc, hsum, BitVec.ofNat_add _ k, BitVec.add_sub_cancel]

theorem cutLoop_spec (c : List Link) : ∀ {s : Stream} (len : Int), Inv s → s.avail = c →
    len ≤ (bytes c).length → ∃ s', cutLoop s c len = some s' ∧ Inv s' := by
  induction c with
  | nil => exact fun len h _ hlen => ⟨_, if_neg (by simpa using hlen), h⟩
  | cons m c ih =>
    intro s len h ha hlen
    rw [bytes_cons, List.length_append] at hlen
    unfold cutLoop
    split
    · split
      · exact ⟨_, rfl, h.part ha (by omega)⟩
      · exact ih _ (h.free ha) (by unfold sbfree; grind) (by omega)
    · exact ⟨_, rfl, h⟩

theorem Inv.drop (h : Inv s) {len : Int} (hlen : len ≤ s.acc.toNat) :
    ∃ s', sbdropLocked s len = some s' ∧ Inv s' := by
  have hle := h.acc_le
  obtain ⟨s', hs', h'⟩ := cutLoop_spec s.avail len h rfl (by omega)
  refine ⟨s', ?_, h'⟩
  rw [sbdropLocked, hs', Option.bind_some]
  -- There is no mbuf without data to be dropped.
  have hfull := h'.sound.full
  cases ha : s'.avail with
  | nil =>
    refine if_neg fun hany => ?_
    obtain ⟨m, hm, hd⟩ := Option.any_eq_true _ _ |>.mp hany
    exact hfull m (List.mem_append_right _ (List.mem_of_mem_head? hm)) (of_decide_eq_true hd)
  | cons m c => exact if_neg (hfull m (List.mem_append_left _ (by simp [ha])))

end Cut

section Send

theorem walk_spec : ∀ (c : List Link) (ptroff : BitVec 32) (n : Nat), (∀ l ∈ c, l.data ≠ []) →
    n < (bytes c).length → ∃ pre l post, c = pre ++ l :: post ∧ (bytes pre).length ≤ n ∧
      walk c ptroff n = (l :: post, ptroff + BitVec.ofNat 32 (bytes pre).length,
        n - (bytes pre).length) := by
  intro c
  induction c with
  | nil => exact fun _ _ _ hn => absurd hn (Nat.not_lt_zero _)
  | cons m rest ih =>
    intro ptroff n hfull hn
    rw [bytes_cons, List.length_append] at hn
    unfold walk
    split
    · obtain ⟨pre, l, post, rfl, hle, hw⟩ := ih (ptroff + BitVec.ofNat 32 m.data.length)
        (n - m.data.length) (fun l hl => hfull l (List.mem_cons_of_mem _ hl)) (by omega)
      refine ⟨m :: pre, l, post, rfl, by simp; omega, ?_⟩
      rw [hw, bytes_cons, List.length_append, BitVec.ofNat_add, BitVec.add_assoc, Nat.sub_sub]
    · exact ⟨[], m, rest, rfl, zero_le, by simp⟩

theorem behind_eq (h : ((pre ++ l :: post).map Link.id).Nodup) :
    behind (pre ++ l :: post) l.id = l :: post := by
  induction pre with
  | nil => simp [behind]
  | cons m pre ih =>
    rw [List.cons_append, List.map_cons, List.nodup_cons] at h
    have hne : m.id ≠ l.id := fun heq => h.1 (by rw [heq]; simp)
    simpa [behind, hne] using ih h.2

/-- From a mbuf and an offset in it the bytes from `n` on are read. -/
def Reads (s : Stream) (id moff n : Nat) : Prop :=
  (bytes (behind s.chain id)).drop moff = (bytes s.chain).drop n

theorem reads_at (h : Inv s) (hc : s.chain = pre ++ l :: post) {k n : Nat}
    (hn : (bytes pre).length + k = n) : Reads s l.id k n := by
  have hnodup := h.sound.nodup
  rw [hc] at hnodup
  rw [Reads, hc, behind_eq hnodup, bytes_append, ← hn, List.drop_length_add_append]

/-- The mbuf that a search starts at. -/
theorem Inv.start (h : Inv s) (hne : s.chain ≠ []) : ∃ pre m rest, s.chain = pre ++ m :: rest ∧
    s.sndptr.elim s.chain (behind s.chain) = m :: rest ∧
    s.sndptroff.toNat = (bytes pre).length := by
  obtain ⟨hp, ho⟩ | ⟨pre, l, post, hc, hp, ho⟩ := h.sound.pointed
  · obtain ⟨m, rest, hc⟩ := List.exists_cons_of_ne_nil hne
    exact ⟨[], m, rest, hc, by rw [hp]; exact hc, by rw [ho]; rfl⟩
  have hnodup := h.sound.nodup
  rw [hc] at hnodup
  exact ⟨pre, l, post, hc, by rw [hp, Option.elim_some, hc, behind_eq hnodup], ho⟩

theorem Inv.acc_le_chain (h : Inv s) : s.acc.toNat ≤ (bytes s.chain).length :=
  le_trans h.acc_le (by simp [Stream.chain])

theorem sndWalk_spec (h : Inv s) (hc : s.chain = pre ++ l :: post)
    (ho : off.toNat = (bytes pre).length) {moff n len : Nat} (hn : (bytes pre).length + moff = n)
    (hlen : 1 ≤ len) (hle : n + len ≤ s.acc.toNat) :
    ∃ s' id moff', sndWalk s (l :: post) off moff n len = some (s', id, moff') ∧ Inv s' ∧
      Reads s id moff' n := by
  have hfull := h.sound.full
  have hfit := h.acc_le_chain
  rw [hc] at hfull hfit
  rw [bytes_append, List.length_append] at hfit
  obtain ⟨pre', l', post', hc', hle', hw⟩ := walk_spec (l :: post) off (n - off.toNat + len - 1)
    (fun l hl => hfull l (List.mem_append_right _ hl)) (by omega)
  rw [sndWalk, hw]
  refine ⟨_, _, _, if_neg fun hno => List.cons_ne_nil _ _ hno.2, ⟨⟨h.sound.nodup, h.sound.below,
    h.sound.full, .inr ⟨pre ++ pre', l', post', ?_, rfl, ?_⟩⟩, h.acc⟩, reads_at h hc hn⟩
  · rw [List.append_assoc, ← hc']
    exact hc
  dsimp only
  rw [BitVec.toNat_add, BitVec.toNat_ofNat, bytes_append, List.length_append]
  omega

theorem sbsndptr_spec (h : Inv s) {n len : Nat} (hlen : 1 ≤ len) (hle : n + len ≤ s.acc.toNat) :
    ∃ s' id moff, sbsndptr s n len = some (s', id, moff) ∧ Inv s' ∧ Reads s id moff n := by
  have hfit := le_trans hle h.acc_le_chain
  have hne : s.chain ≠ [] := fun hc => by
    rw [hc] at hfit
    exact absurd hfit (by simp; omega)
  unfold sbsndptr
  split
  · obtain ⟨m, rest, hc⟩ := List.exists_cons_of_ne_nil hne
    exact ⟨s, m.id, n, by rw [hc]; rfl, h,
      reads_at h (show s.chain = [] ++ m :: rest from hc) (Nat.zero_add n)⟩
  rename_i hlt
  obtain ⟨pre, m, rest, hc, hstart, ho⟩ := h.start hne
  rw [ho] at hlt
  rw [hstart, ho]
  dsimp only
  split
  · rename_i hend
    -- The data of the mbuf has been sent, so there is another one behind it.
    have hb : (bytes (pre ++ [m])).length = n := by simp; omega
    cases rest with
    | nil =>
      rw [hc] at hfit
      omega
    | cons r rest =>
      exact sndWalk_spec h (show s.chain = (pre ++ [m]) ++ r :: rest by simp [hc])
        (by rw [BitVec.toNat_add, BitVec.toNat_ofNat]; omega) (Nat.add_zero _ ▸ hb) hlen hle
  · exact sndWalk_spec h hc ho (Nat.add_sub_cancel' (not_lt.mp hlt)) hlen hle

theorem sbsndmbuf_spec (h : Inv s) {n : Nat} (hn : n < (bytes s.chain).length) :
    ∃ id moff, sbsndmbuf s n = some (id, moff) ∧ Reads s id moff n := by
  have hne : s.chain ≠ [] := fun hc => by
    rw [hc] at hn
    exact absurd hn (Nat.not_lt_zero _)
  -- Either way the loop starts at a mbuf whose offset is not behind `n`.
  obtain ⟨pre, c, hc, hle, hw⟩ : ∃ pre c, s.chain = pre ++ c ∧ (bytes pre).length ≤ n ∧
      sbsndmbuf s n = (walk c 0 (n - (bytes pre).length)).1.head?.map (fun m =>
        (m.id, (walk c 0 (n - (bytes pre).length)).2.2)) := by
    unfold sbsndmbuf
    split
    · exact ⟨[], s.chain, rfl, zero_le, rfl⟩
    rename_i hno
    rw [not_or, Nat.not_lt] at hno
    obtain ⟨pre, m, rest, hc, hstart, ho⟩ := h.start hne
    obtain ⟨id, hid⟩ := Option.ne_none_iff_exists'.mp hno.1
    rw [hid] at hstart ⊢
    exact ⟨pre, m :: rest, hc, ho ▸ hno.2, by rw [← ho, ← hstart]; rfl⟩
  have hfull := h.sound.full
  rw [hc] at hfull hn
  rw [bytes_append, List.length_append] at hn
  obtain ⟨pre', l, post, rfl, hle', hw'⟩ := walk_spec c 0 (n - (bytes pre).length)
    (fun l hl => hfull l (List.mem_append_right _ hl)) (by omega)
  rw [hw, hw']
  exact ⟨_, _, rfl, reads_at h
    (show s.chain = (pre ++ pre') ++ l :: post by rw [hc, List.append_assoc])
    (by rw [bytes_append, List.length_append]; dsimp only; omega)⟩

end Send

theorem step_spec (s : Stream) (o : Op) (h : Inv s) (hok : Allowed s o) :
    ∃ s', step s o = some s' ∧ Inv s' := by
  cases o with
  | sbappendstream nocoalesce shared flags m => exact ⟨_, rfl, h.append nocoalesce shared flags m⟩
  | sbdrop len => exact h.drop hok
  | sbsndptr n len =>
    obtain ⟨s', _, _, hs, h', -⟩ := sbsndptr_spec h hok.1 hok.2
    exact ⟨s', by rw [step, hs]; rfl, h'⟩

theorem inv_start : Inv start :=
  ⟨⟨List.nodup_nil, nofun, nofun, .inl ⟨rfl, rfl⟩⟩, rfl⟩

/-- **Every run goes through without a panic. Afterwards the offset is that of the pointer,
    and either search finds a mbuf from which the bytes are read.** -/
theorem sndptr_transparent (ops : List Op) (hok : EveryStep step Allowed start ops) :
    ∃ s, runOps step start ops = some s ∧ Pointed s.chain s.sndptr s.sndptroff ∧
      ∀ n len, 1 ≤ len → n + len ≤ s.acc.toNat →
        (∃ s' id moff, sbsndptr s n len = some (s', id, moff) ∧ Reads s id moff n) ∧
        ∃ id moff, sbsndmbuf s n = some (id, moff) ∧ Reads s id moff n := by
  obtain ⟨s, hs, h⟩ := runOps_progress_of step Allowed Inv step_spec ops start inv_start hok
  refine ⟨s, hs, h.sound.pointed, fun n len hlen hle => ⟨?_, sbsndmbuf_spec h ?_⟩⟩
  · obtain ⟨s', id, moff, hsnd, -, hr⟩ := sbsndptr_spec h hlen hle
    exact ⟨s', id, moff, hsnd, hr⟩
  · have := h.acc_le_chain
    omega

theorem sndptr_transparent_four : ∃ s, runOps step start
    [.sbappendstream false (fun _ => false) false
      [(⟨[1, 2, 3], 1, false, none, 9, false, false, none⟩, false)],
      .sbsndptr 0 2, .sbdrop 1, .sbsndptr 1 1] = some s ∧
    Pointed s.chain s.sndptr s.sndptroff := by
  obtain ⟨s, hs, hp, -⟩ := sndptr_transparent [.sbappendstream false (fun _ => false) false
    [(⟨[1, 2, 3], 1, false, none, 9, false, false, none⟩, false)], .sbsndptr 0 2, .sbdrop 1,
    .sbsndptr 1 1] (by decide)
  exact ⟨s, hs, hp⟩

end Snd

end FreeBSDKern.Sockbuf
