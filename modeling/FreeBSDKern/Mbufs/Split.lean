import Mathlib

/-!
# Splitting an Mbuf Chain

`m_split` cuts a chain in two behind its first `len0` bytes. It walks to the mbuf in
which the cut falls. A cut at the end of a mbuf only divides the list, with a new
header mbuf in front of the second part if the chain has a packet header. Inside a
mbuf with external storage the two parts share the cluster. Otherwise the bytes
behind the cut are copied to a new mbuf, and where they do not fit behind a packet
header, `m_split` calls itself for a mbuf without one and puts an empty header mbuf
in front. Only the first mbuf of a chain has a packet header, and if it has no
external storage its bytes fit, so the inner call is always for a chain without.

A mbuf is its storage, the offset of `m_data` there and `m_len`. What the storage of
a new mbuf holds is up to the allocator, whose answers are given in advance. A chain is
the list of its mbufs and the packet header of the first one, and `NULL` is `none`.
Of the header only `rcvif` and `len` are kept.

## Main definitions

* `Mbuf`, `Chain`, `Memory`: Mbufs and the clusters they refer to.
* `mSplit`: The split.
* `SplitsOrRestores`: What is expected of it.

## Theorems

* `locate_bytes`: What the walk has passed and what is left.
* `mSplit_iff`: When the expectation is met.
-/

namespace FreeBSDKern.Mbufs

/-- `MLEN` and `MHLEN`. -/
structure Layout where
  mlen : Nat
  mhlen : Nat

/-- The mbuf's own storage, or a cluster. -/
inductive Storage where
  | dat (buf : Int → UInt8)
  | ext (cluster : Nat)

structure Mbuf where
  type : Nat
  storage : Storage
  rdonly : Bool
  /-- `m_data`, from the start of the storage. -/
  data : Int
  len : Nat

structure Pkthdr where
  rcvif : Nat
  len : Int

structure Chain where
  pkthdr : Option Pkthdr
  mbufs : List Mbuf

/-- The clusters, and how many mbufs refer to each. -/
structure Memory where
  clusters : Nat → Int → UInt8
  extCnt : Nat → Nat

def Storage.contents (mem : Memory) : Storage → Int → UInt8
  | .dat buf => buf
  | .ext c => mem.clusters c

def Mbuf.bytes (mem : Memory) (m : Mbuf) : List UInt8 :=
  (List.range m.len).map (fun i : Nat => m.storage.contents mem (m.data + i))

def bytes (mem : Memory) (mbufs : List Mbuf) : List UInt8 := mbufs.flatMap (fun m => m.bytes mem)

/-- A new mbuf; `buf` is what its storage holds. -/
def mGet (type : Nat) (buf : Int → UInt8) : Mbuf := ⟨type, .dat buf, false, 0, 0⟩

/-- `M_ALIGN`, for a mbuf with storage of `size` bytes. -/
def mAlign (size : Nat) (m : Mbuf) (len : Nat) : Mbuf :=
  { m with data := m.data + ((size : Int) - len) / 8 * 8 }

def bcopy (src : Int → UInt8) (i : Int) (dst : Int → UInt8) (j : Int) (n : Nat) : Int → UInt8 :=
  fun k => if j ≤ k ∧ k < j + n then src (i + (k - j)) else dst k

/-- The loop that looks for the cut: the mbufs passed, the one where it falls, those
    behind, and where in that mbuf. -/
def locate : List Mbuf → Nat → Option (List Mbuf × Mbuf × List Mbuf × Nat)
  | [], _ => none
  | m :: rest, len =>
    if len > m.len then
      (locate rest (len - m.len)).map (fun (pre, at') => (m :: pre, at'))
    else some ([], m, rest, len)

/-- From `extpacket` on: `n` gets what is behind the cut in `m`. The answer is the
    memory, `m` and `n`. -/
def extpacket (mem : Memory) (n m : Mbuf) (len remain : Nat) : Memory × Mbuf × Mbuf :=
  match m.storage with
  | .ext c =>
    ({ mem with extCnt := Function.update mem.extCnt c (mem.extCnt c + 1) }, { m with len := len },
      { n with
        data := m.data + len, storage := m.storage, rdonly := n.rdonly || m.rdonly, len := remain })
  | .dat buf =>
    (mem, { m with len := len }, { n with
        storage := .dat (bcopy buf (m.data + len) (n.storage.contents mem) n.data remain)
        len := remain })

/-- `m_split` of a chain without a packet header. -/
def splitNohdr (lay : Layout) (alloc : Option (Int → UInt8)) (mem : Memory) (mbufs : List Mbuf)
    (len0 : Nat) : Memory × List Mbuf × Option (List Mbuf) :=
  match locate mbufs len0 with
  | none => (mem, mbufs, none)
  | some (pre, m, post, len) =>
    let remain := m.len - len
    if remain = 0 then (mem, pre ++ [m], if post = [] then none else some post)
    else
      match alloc with
      | none => (mem, mbufs, none)
      | some buf =>
        let (mem, m, n) :=
          extpacket mem (mAlign lay.mlen (mGet m.type buf) remain) m len remain
        (mem, pre ++ [m], some (n :: post))

/-- `m_split`. The chain that was given is changed; the answer is the other one. -/
def mSplit (lay : Layout) (alloc : Nat → Option (Int → UInt8)) (mem : Memory) (c : Chain)
    (len0 : Nat) : Memory × Chain × Option Chain :=
  match c.pkthdr with
  | none =>
    let (mem, mbufs, n) := splitNohdr lay (alloc 0) mem c.mbufs len0
    (mem, ⟨none, mbufs⟩, n.map (⟨none, ·⟩))
  | some pkthdr =>
    match locate c.mbufs len0 with
    | none => (mem, c, none)
    | some (pre, m, post, len) =>
      let remain := m.len - len
      match alloc 0 with
      | none => (mem, c, none)
      | some buf =>
        let n := mGet ((c.mbufs.head?.map (·.type)).getD 0) buf
        let nhdr := some { pkthdr with len := pkthdr.len - len0 }
        let hdr := some { pkthdr with len := len0 }
        if remain = 0 then (mem, ⟨hdr, pre ++ [m]⟩, some ⟨nhdr, n :: post⟩)
        else
          match m.storage, decide (remain > lay.mhlen) with
          | .dat _, true =>
            let n := mAlign lay.mhlen n 0
            match splitNohdr lay (alloc 1) mem (m :: post) len with
            | (mem, mbufs, none) => (mem, ⟨hdr, pre ++ mbufs⟩, none)
            | (mem, mbufs, some rest) =>
              (mem, ⟨hdr, pre ++ mbufs⟩, some ⟨nhdr, { n with len := 0 } :: rest⟩)
          | .dat _, false =>
            let (mem, m, n) := extpacket mem (mAlign lay.mhlen n remain) m len remain
            (mem, ⟨hdr, pre ++ [m]⟩, some ⟨nhdr, n :: post⟩)
          | .ext _, _ =>
            let (mem, m, n) := extpacket mem n m len remain
            (mem, ⟨hdr, pre ++ [m]⟩, some ⟨nhdr, n :: post⟩)

/-- The length in the packet header is that of the chain. -/
def Chain.Consistent (mem : Memory) (c : Chain) : Prop :=
  ∀ pkthdr ∈ c.pkthdr, pkthdr.len = (bytes mem c.mbufs).length

/-- Either the chain keeps its first `len0` bytes and the other one has the rest, with
    headers if there was one and the right lengths in them, or nothing has changed. -/
def SplitsOrRestores (mem : Memory) (c : Chain) (len0 : Nat) : Memory × Chain × Option Chain → Prop
  | (mem', c', some n) =>
    bytes mem' c'.mbufs = (bytes mem c.mbufs).take len0 ∧
      bytes mem' n.mbufs = (bytes mem c.mbufs).drop len0 ∧
      c'.pkthdr.isSome = c.pkthdr.isSome ∧ n.pkthdr.isSome = c.pkthdr.isSome ∧
      c'.Consistent mem' ∧ n.Consistent mem'
  | (mem', c', none) => mem' = mem ∧ c' = c

/-- The cut falls in a mbuf without external storage, of a chain with a packet header,
    more than `MHLEN` bytes before its end, and there is memory for one mbuf only. -/
def LosesLength (lay : Layout) (alloc : Nat → Option (Int → UInt8)) (c : Chain) (len0 : Nat) :
    Prop :=
  c.pkthdr ≠ none ∧ (∃ pre m post len buf, locate c.mbufs len0 = some (pre, m, post, len) ∧
    m.storage = .dat buf ∧ len + lay.mhlen < m.len) ∧ alloc 0 ≠ none ∧ alloc 1 = none

variable {lay : Layout} {alloc : Nat → Option (Int → UInt8)} {mem : Memory} {mbufs : List Mbuf}
  {len0 : Nat}

/-! ## Bytes -/

theorem bytes_append (mem : Memory) (l₁ l₂ : List Mbuf) :
    bytes mem (l₁ ++ l₂) = bytes mem l₁ ++ bytes mem l₂ :=
  List.flatMap_append

theorem bytes_cons (mem : Memory) (m : Mbuf) (l : List Mbuf) :
    bytes mem (m :: l) = m.bytes mem ++ bytes mem l :=
  List.flatMap_cons

@[simp] theorem Mbuf.length_bytes (mem : Memory) (m : Mbuf) : (m.bytes mem).length = m.len := by
  simp [Mbuf.bytes]

/-- The number of references to a cluster is no matter. -/
theorem bytes_extCnt (mem : Memory) (extCnt : Nat → Nat) (l : List Mbuf) :
    bytes { mem with extCnt := extCnt } l = bytes mem l := by
  refine List.flatMap_congr (fun m _ => ?_)
  unfold Mbuf.bytes
  cases m.storage with
  | dat buf => rfl
  | ext c => rfl

/-- What the loop has passed, and where the cut falls. -/
theorem locate_bytes (mem : Memory) : ∀ (mbufs : List Mbuf) (len0 : Nat)
    {pre post : List Mbuf} {m : Mbuf} {len : Nat}, locate mbufs len0 = some (pre, m, post, len) →
    mbufs = pre ++ m :: post ∧ (bytes mem pre).length + len = len0 ∧ len ≤ m.len := by
  intro mbufs
  induction mbufs with
  | nil => exact fun _ _ _ _ _ h => nomatch h
  | cons a rest ih =>
    intro len0 pre post m len h
    rw [locate] at h
    split at h
    case isTrue hlong =>
      rcases Option.map_eq_some_iff.mp h with ⟨⟨pre', at'⟩, hrest, heq⟩
      cases heq
      rcases ih _ hrest with ⟨hlist, hlen, hle⟩
      refine ⟨by rw [hlist]; rfl, ?_, hle⟩
      rw [bytes_cons, List.length_append, Mbuf.length_bytes]
      omega
    case isFalse hshort =>
      cases h
      exact ⟨rfl, by simp [bytes], by omega⟩

/-- The bytes of a mbuf with another length. -/
theorem Mbuf.bytes_take (mem : Memory) (m : Mbuf) {len : Nat} (hlen : len ≤ m.len) :
    { m with len := len }.bytes mem = (m.bytes mem).take len := by
  simp [Mbuf.bytes, ← List.map_take, List.take_range, Nat.min_eq_left hlen]

/-- Bytes that are those of the mbuf from an offset on. -/
theorem Mbuf.bytes_drop (mem : Memory) (m n : Mbuf) (len : Nat) (hlen : n.len = m.len - len)
    (hsame : ∀ i : Nat, i < n.len → n.storage.contents mem (n.data + i) =
      m.storage.contents mem (m.data + (len + i : Nat))) :
    n.bytes mem = (m.bytes mem).drop len := by
  refine List.ext_getElem (by simp [hlen]) (fun i h₁ h₂ => ?_)
  rw [Mbuf.length_bytes] at h₁
  simp only [Mbuf.bytes, List.getElem_map, List.getElem_range, List.getElem_drop]
  exact hsame i h₁

/-- The two parts of a mbuf. -/
theorem extpacket_bytes (mem : Memory) (n m : Mbuf) (len : Nat) (hlen : len ≤ m.len) :
    ∃ extCnt m' n', extpacket mem n m len (m.len - len) = ({ mem with extCnt := extCnt }, m', n') ∧
      m'.bytes mem = (m.bytes mem).take len ∧ n'.bytes mem = (m.bytes mem).drop len := by
  unfold extpacket
  split
  case h_1 c hstorage =>
    refine ⟨_, _, _, rfl, m.bytes_take mem hlen, m.bytes_drop mem _ len rfl (fun i _ => ?_)⟩
    exact congrArg _ (by dsimp only; omega)
  case h_2 buf hstorage =>
  refine ⟨mem.extCnt, _, _, rfl, m.bytes_take mem hlen, m.bytes_drop mem _ len rfl (fun i hi => ?_)⟩
  have hin : n.data ≤ n.data + i ∧ n.data + i < n.data + (m.len - len : Nat) := by
    dsimp only at hi
    omega
  simp only [hstorage, Storage.contents, bcopy, if_pos hin]
  exact congrArg buf (by omega)

/-! ## The split -/

/-- A chain that has been cut, with the lengths in its headers. -/
theorem splits {c : Chain} (hc : c.Consistent mem) {pre post kept cut : List Mbuf} {m : Mbuf}
    {len : Nat} (hlocate : locate c.mbufs len0 = some (pre, m, post, len)) (extCnt : Nat → Nat)
    (hkept : bytes mem kept = bytes mem pre ++ (m.bytes mem).take len)
    (hcut : bytes mem cut = (m.bytes mem).drop len ++ bytes mem post) :
    SplitsOrRestores mem c len0 ({ mem with extCnt := extCnt },
      ⟨c.pkthdr.map (fun p => { p with len := len0 }), kept⟩,
      some ⟨c.pkthdr.map (fun p => { p with len := p.len - len0 }), cut⟩) := by
  rcases locate_bytes mem c.mbufs len0 hlocate with ⟨hlist, hlen, hle⟩
  have htake : bytes mem kept = (bytes mem c.mbufs).take len0 := by
    rw [hkept, hlist, bytes_append, bytes_cons, ← hlen, List.take_length_add_append,
      List.take_append_of_le_length (by rw [Mbuf.length_bytes]; exact hle)]
  have hdrop : bytes mem cut = (bytes mem c.mbufs).drop len0 := by
    rw [hcut, hlist, bytes_append, bytes_cons, ← hlen, List.drop_length_add_append,
      List.drop_append_of_le_length (by rw [Mbuf.length_bytes]; exact hle)]
  have htotal : len0 ≤ (bytes mem c.mbufs).length := by
    rw [hlist, bytes_append, bytes_cons, List.length_append, List.length_append, Mbuf.length_bytes]
    omega
  refine ⟨?_, ?_, by simp, by simp, ?_, ?_⟩
  · rw [bytes_extCnt, htake]
  · rw [bytes_extCnt, hdrop]
  · intro p hp
    rcases Option.map_eq_some_iff.mp hp with ⟨p₀, _, rfl⟩
    rw [bytes_extCnt, htake, List.length_take]
    dsimp only
    omega
  intro p hp
  rcases Option.map_eq_some_iff.mp hp with ⟨p₀, hp₀, rfl⟩
  rw [bytes_extCnt, hdrop, List.length_drop]
  dsimp only
  rw [hc p₀ hp₀]
  omega

/-- A cut at the end of a mbuf or inside one. -/
theorem extpacket_cut (n m : Mbuf) (pre post : List Mbuf) {len : Nat} (hlen : len ≤ m.len) :
    ∃ extCnt m' n', extpacket mem n m len (m.len - len) = ({ mem with extCnt := extCnt }, m', n') ∧
      bytes mem (pre ++ [m']) = bytes mem pre ++ (m.bytes mem).take len ∧
      bytes mem (n' :: post) = (m.bytes mem).drop len ++ bytes mem post := by
  rcases extpacket_bytes mem n m len hlen with ⟨extCnt, m', n', heq, htake, hdrop⟩
  refine ⟨extCnt, m', n', heq, ?_, ?_⟩
  · simp [htake, bytes]
  · rw [bytes_cons, hdrop]

/-- What the inner call comes to for a mbuf that the cut falls in. -/
theorem splitNohdr_inside (lay : Layout) (buf : Option (Int → UInt8)) (mem : Memory) (m : Mbuf)
    (pre post : List Mbuf) (len : Nat) (hlen : len < m.len) :
    (buf = none ∧ splitNohdr lay buf mem (m :: post) len = (mem, m :: post, none)) ∨
      buf ≠ none ∧ ∃ extCnt kept cut, splitNohdr lay buf mem (m :: post) len =
          ({ mem with extCnt := extCnt }, kept, some cut) ∧
        bytes mem (pre ++ kept) = bytes mem pre ++ (m.bytes mem).take len ∧
        bytes mem cut = (m.bytes mem).drop len ++ bytes mem post := by
  have hlocate : locate (m :: post) len = some ([], m, post, len) := by
    rw [locate, if_neg (by omega)]
  unfold splitNohdr
  rw [hlocate]
  dsimp only
  rw [if_neg (by omega)]
  cases buf with
  | none => exact Or.inl ⟨rfl, rfl⟩
  | some buf =>
    rcases @extpacket_cut mem (mAlign lay.mlen (mGet m.type buf) (m.len - len)) m pre post len
      (le_of_lt hlen) with ⟨extCnt, m', n', heq, hkept, hcut⟩
    refine Or.inr ⟨Option.some_ne_none buf, extCnt, [m'], n' :: post, ?_, hkept, hcut⟩
    dsimp only
    rw [heq]
    rfl

/-- A cut at the end of a mbuf. -/
theorem end_cut (mem : Memory) (m n : Mbuf) (pre post : List Mbuf) (len : Nat)
    (hlen : m.len ≤ len) (hn : n.len = 0) :
    bytes mem (pre ++ [m]) = bytes mem pre ++ (m.bytes mem).take len ∧
      bytes mem post = (m.bytes mem).drop len ++ bytes mem post ∧
      bytes mem (n :: post) = (m.bytes mem).drop len ++ bytes mem post := by
  have htake : (m.bytes mem).take len = m.bytes mem := List.take_of_length_le (by simpa using hlen)
  have hdrop : (m.bytes mem).drop len = [] := List.drop_eq_nil_of_le (by simpa using hlen)
  have hnil : n.bytes mem = [] := List.eq_nil_of_length_eq_zero (by simpa using hn)
  simp [htake, hdrop, hnil, bytes]

theorem mSplit_nohdr (lay : Layout) (alloc : Nat → Option (Int → UInt8)) (mem : Memory)
    (mbufs : List Mbuf) (len0 : Nat) :
    SplitsOrRestores mem ⟨none, mbufs⟩ len0 (mSplit lay alloc mem ⟨none, mbufs⟩ len0) := by
  have hc : Chain.Consistent mem ⟨none, mbufs⟩ := fun _ hp => nomatch hp
  unfold mSplit splitNohdr
  dsimp only
  split
  case h_1 => exact ⟨rfl, rfl⟩
  case h_2 pre m post len hlocate =>
  rcases locate_bytes mem mbufs len0 hlocate with ⟨hlist, hlen, hle⟩
  split
  case isTrue hzero =>
    split
    case isTrue hpost =>
      rw [hpost] at hlist
      exact ⟨rfl, by rw [hlist]⟩
    case isFalse =>
      have hcut := end_cut mem m (mGet 0 (fun _ => 0)) pre post len (by omega) rfl
      exact splits hc hlocate mem.extCnt hcut.1 hcut.2.1
  case isFalse =>
  split
  case h_1 => exact ⟨rfl, rfl⟩
  case h_2 buf _ =>
  rcases @extpacket_cut mem (mAlign lay.mlen (mGet m.type buf) (m.len - len)) m pre post len
    hle with ⟨extCnt, m', n', heq, hkept, hcut⟩
  rw [heq]
  exact splits hc hlocate extCnt hkept hcut

/-- The split keeps its promise unless it runs out of memory in the inner call. -/
theorem mSplit_iff (lay : Layout) (alloc : Nat → Option (Int → UInt8)) (mem : Memory) (c : Chain)
    (len0 : Nat) (hc : c.Consistent mem) :
    SplitsOrRestores mem c len0 (mSplit lay alloc mem c len0) ↔ ¬ LosesLength lay alloc c len0 := by
  rcases c with ⟨_ | pkthdr, mbufs⟩
  · exact iff_of_true (mSplit_nohdr lay alloc mem mbufs len0) (fun h => h.1 rfl)
  unfold mSplit
  dsimp only
  split
  case h_1 hlocate =>
    exact iff_of_true ⟨rfl, rfl⟩ (fun ⟨_, ⟨_, _, _, _, _, h, _⟩, _⟩ => nomatch hlocate.symm.trans h)
  case h_2 pre m post len hlocate =>
  rcases locate_bytes mem mbufs len0 hlocate with ⟨hlist, hlen, hle⟩
  have hloses : LosesLength lay alloc ⟨some pkthdr, mbufs⟩ len0 ↔
      (∃ buf, m.storage = .dat buf ∧ len + lay.mhlen < m.len) ∧ alloc 0 ≠ none ∧
        alloc 1 = none := by
    simp [LosesLength, hlocate]
  rw [hloses]
  cases halloc : alloc 0 with
  | none => exact iff_of_true ⟨rfl, rfl⟩ (fun h => h.2.1 rfl)
  | some buf =>
    dsimp only
    split
    case isTrue hzero =>
      refine iff_of_true ?_ (fun h => by rcases h.1 with ⟨_, _, _⟩; omega)
      have hcut := end_cut mem m (mGet ((mbufs.head?.map (·.type)).getD 0) buf) pre post
        len (by omega) rfl
      exact splits hc hlocate mem.extCnt hcut.1 hcut.2.2
    case isFalse hpos =>
    split
    case h_1 buf' hstorage hlarge =>
      have hlarge := of_decide_eq_true hlarge
      rcases splitNohdr_inside lay (alloc 1) mem m pre post len (by omega) with
        ⟨hnone, heq⟩ | ⟨hsome, extCnt, kept, cut, heq, hkept, hcut⟩
      · -- The length is that of the first part, and the chain is whole.
        rw [heq]
        refine iff_of_false (fun h => ?_) (not_not_intro ⟨⟨buf', hstorage, by omega⟩,
          Option.some_ne_none buf, hnone⟩)
        have hlost : (len0 : Int) = pkthdr.len :=
          congrArg (fun c => (c.pkthdr.map (·.len)).getD 0) h.2
        rw [hc pkthdr rfl, hlist, bytes_append, bytes_cons, List.length_append,
          List.length_append, Mbuf.length_bytes] at hlost
        omega
      rw [heq]
      refine iff_of_true ?_ (fun h => hsome h.2.2)
      refine splits hc hlocate extCnt hkept ?_
      rw [bytes_cons, hcut]
      rfl
    case h_2 hsmall =>
      have hsmall := of_decide_eq_false hsmall
      rcases @extpacket_cut mem (mAlign lay.mhlen (mGet _ buf) (m.len - len)) m pre post len
        hle with ⟨extCnt, m', n', heq, hkept, hcut⟩
      rw [heq]
      refine iff_of_true (splits hc hlocate extCnt hkept hcut) (fun h => ?_)
      rcases h.1 with ⟨_, _, _⟩
      omega
    case h_3 hstorage =>
    rcases @extpacket_cut mem (mGet _ buf) m pre post len hle with
      ⟨extCnt, m', n', heq, hkept, hcut⟩
    rw [heq]
    refine iff_of_true (splits hc hlocate extCnt hkept hcut) (fun h => ?_)
    rcases h.1 with ⟨_, hdat, _⟩
    exact nomatch hstorage.symm.trans hdat

/-- On amd64, a header mbuf with five bytes and a mbuf with 200. -/
def twoMbufs : Chain :=
  ⟨some ⟨0, 205⟩, [⟨1, .dat (fun _ => 0), false, 0, 5⟩, ⟨1, .dat (fun _ => 1), false, 0, 200⟩]⟩

def noClusters : Memory := ⟨fun _ _ => 0, fun _ => 0⟩

theorem twoMbufs_consistent : twoMbufs.Consistent noClusters := by
  intro p hp
  rw [← Option.some.inj hp]
  simp [twoMbufs, bytes]

theorem split_two_mbufs : SplitsOrRestores noClusters twoMbufs 10
    (mSplit ⟨224, 168⟩ (fun _ => some (fun _ => 0)) noClusters twoMbufs 10) :=
  (mSplit_iff _ _ _ _ _ twoMbufs_consistent).mpr (fun h => nomatch h.2.2)

/-- The second mbuf cannot be allocated, and the header says that the chain has ten
    bytes. -/
theorem split_loses_length :
    ¬ ∀ (lay : Layout) (alloc : Nat → Option (Int → UInt8)) (mem : Memory) (c : Chain)
      (len0 : Nat), c.Consistent mem → SplitsOrRestores mem c len0 (mSplit lay alloc mem c len0) := by
  intro h
  have hsplit := h ⟨224, 168⟩ (fun k => if k = 0 then some (fun _ => 0) else none) noClusters
    twoMbufs 10 twoMbufs_consistent
  have hrun : mSplit ⟨224, 168⟩ (fun k => if k = 0 then some (fun _ => 0) else none) noClusters
      twoMbufs 10 = (noClusters, ⟨some ⟨0, 10⟩, twoMbufs.mbufs⟩, none) := rfl
  rw [hrun] at hsplit
  have hlen : (10 : Int) = 205 := congrArg (fun c => (c.pkthdr.map (·.len)).getD 0) hsplit.2
  exact absurd hlen (by decide)

end FreeBSDKern.Mbufs
