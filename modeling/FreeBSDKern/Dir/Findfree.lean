import FreeBSDKern.Dir.Mirror

/-!
# Room for a New Name

`ufsdirhash_findfree` asks the statistics for a block with room, reads it, and looks for
records that together have that much free at their ends. It panics if the block has less
room than the statistics say.

As long as the hash is told of every change, it does not. The free words of each block are
those that its records leave, and the first block of each class is the first one. The
last class has all blocks with the most words that a name can need, or more.

## Main definitions

* `findfree`: The search for room.
* `freeBytes`: What the records of a block leave.
* `Exact`: The statistics are those of the directory, and so is what is found.

## Theorems

* `freeBytes_add`: What is left, and what the names of a block need.
* `firstRoom_spec`, `gather_spec`: The two loops over the records.
* `findfree_spec`: What is found.
* `dirhash_stats_exact`: Every run in which the hash is told of every change.
* `findfree_gives_up`: A block that cannot be read.
-/

namespace FreeBSDKern.Dir

open Lib

def howmany (x y : Nat) : Nat := (x + (y - 1)) / y

/-- The first entry with free space, from `i` of the block at `pos` on. -/
def firstRoom (D : Directory) (pos : Nat) : Nat → Nat → Option Nat
  | 0, _ => none
  | fuel + 1, i =>
    if i < dirblksiz then
      if D.dReclen (pos + i) = 0 then none
      else if D.dIno (pos + i) = 0 ∨ D.dReclen (pos + i) > directsiz (D.dNamlen (pos + i)) then
        some i
      else firstRoom D pos fuel (i + D.dReclen (pos + i))
    else some i

/-- The range of entries needed to get enough space, and the space. -/
def gather (D : Directory) (pos slotneeded : Nat) : Nat → Nat → Int → Option (Nat × Int)
  | 0, _, _ => none
  | fuel + 1, i, freebytes =>
    if i < dirblksiz ∧ freebytes < slotneeded then
      if D.dReclen (pos + i) = 0 then none
      else
        gather D pos slotneeded fuel (i + D.dReclen (pos + i))
          (freebytes + D.dReclen (pos + i) -
            if D.dIno (pos + i) ≠ 0 then directsiz (D.dNamlen (pos + i)) else 0)
    else some (i, freebytes)

/-- `ufsdirhash_findfree`, with the error in reading each block. The start and the size,
    or `some none` for -1. A panic is `none`. -/
def findfree (D : Directory) (dh : Dirhash) (blkatoff : Nat → Option Nat) (slotneeded : Nat) :
    Option (Option (Nat × Nat)) :=
  let least := howmany slotneeded diralign
  match (List.range' least (dhNfstats + 1 - least)).findSome? dh.dhFirstfree with
  | none => some none
  | some dirblock =>
    if ¬(dirblock < dh.dhNblk ∧ dh.dhBlkfree dirblock ≥ least) then none
    else
      let pos := dirblock * dirblksiz
      if (blkatoff pos).isSome then some none
      else
        match firstRoom D pos (dirblksiz + 1) 0 with
        | none => some none
        | some i =>
          if i > dirblksiz then some none
          else
            match gather D pos slotneeded (dirblksiz + 1) i 0 with
            | none => some none
            | some (j, freebytes) =>
              if j > dirblksiz then some none
              else if freebytes < slotneeded then none
              else some (some (pos + i, pos + j - (pos + i)))

/-! ## Free bytes -/

/-- The bytes that a record leaves. -/
def unused (D : Directory) (o : Nat) : Nat :=
  if D.dIno o = 0 then D.dReclen o else D.dReclen o - D.dirsiz o

def freeBytes (D : Directory) (b : Nat) : Nat := ((D.records b).map (unused D)).sum

/-- The class of a block. -/
def freeClass (D : Directory) (b : Nat) : Nat := blkfree2idx (freeBytes D b / diralign)

/-- Records one behind the other in a block, with `n` bytes free. -/
def HasRoom (D : Directory) (n start size : Nat) : Prop :=
  ∃ b < D.nblocks, ∃ pre os post, D.records b = pre ++ os ++ post ∧
    start = dirblksiz * b + (pre.map D.dReclen).sum ∧ size = (os.map D.dReclen).sum ∧
      n ≤ (os.map (unused D)).sum

/-- What is known is what there is. Only for a block that cannot be read is room missed. -/
structure Exact (D : Directory) (dh : Dirhash) : Prop where
  blkfree : ∀ b < D.nblocks, dh.dhBlkfree b * diralign = freeBytes D b
  firstfree : ∀ k ≤ dhNfstats, First (fun b => freeClass D b = k) D.nblocks (dh.dhFirstfree k)
  found : ∀ blkatoff n, ∃ r, findfree D dh blkatoff n = some r ∧
    match r with
    | some (start, size) => HasRoom D n start size
    | none => (∃ b < D.nblocks, (blkatoff (b * dirblksiz)).isSome = true) ∨
        ∀ b < D.nblocks, freeClass D b < howmany n diralign ∧
          (n ≤ diralign * dhNfstats → freeBytes D b < n)

variable {D : Directory}

theorem Tiles.split : ∀ {pre os : List Nat} {a e : Nat}, Tiles D a (pre ++ os) e →
    Tiles D (a + (pre.map D.dReclen).sum) os e
  | [], _, _, _, h => h
  | p :: pre, os, a, e, h => by
    have hrest := Tiles.split h.2.2.2
    rw [List.map_cons, List.sum_cons, h.1, ← Nat.add_assoc]
    exact hrest

/-- What is left of a block, and what its names need. -/
theorem Directory.Ok.freeBytes_add (hD : D.Ok) {b : Nat} (hb : b < D.nblocks) :
    freeBytes D b + blockUse D.live b = dirblksiz := by
  have htile := hD.tiles b hb
  have hone : ∀ o ∈ D.records b, unused D o + cost (D.live o) = D.dReclen o := by
    intro o ho
    have hmem := htile.mem ho
    have hpos := htile.pos ho
    have hlt : o < D.iSize := by
      rw [hD.size_eq]
      have : dirblksiz * (b + 1) ≤ dirblksiz * D.nblocks := Nat.mul_le_mul_left _ hb
      omega
    rw [unused, Directory.live, hD.div_of_mem hb ho]
    by_cases hino : D.dIno o = 0
    · simp [hino, cost]
    rw [if_neg hino, if_pos ⟨hlt, ho, hino⟩]
    simp only [cost, Directory.name_length]
    exact Nat.sub_add_cancel hmem.2.2.2
  have hlen := htile.reclen_sum
  rw [hD.blockUse_eq hb, freeBytes, ← List.sum_map_add, List.map_congr_left hone]
  rw [Nat.mul_add] at hlen
  omega

theorem Stats.blkfree_eq {dh : Dirhash} (hD : D.Ok) (hs : Stats D.listing dh) {b : Nat}
    (hb : b < D.nblocks) : 4 * dh.dhBlkfree b = freeBytes D b := by
  have hfree := hs.free b (by rwa [hs.blks])
  have hadd := hD.freeBytes_add hb
  have : D.listing.live = D.live := rfl
  rw [this] at hfree
  omega

theorem Stats.class_eq {dh : Dirhash} (hD : D.Ok) (hs : Stats D.listing dh) {b : Nat}
    (hb : b < D.nblocks) : freeClass D b = blkfree2idx (dh.dhBlkfree b) := by
  rw [freeClass, ← hs.blkfree_eq hD hb]
  exact congrArg blkfree2idx (Nat.mul_div_cancel_left _ (by decide))

theorem Stats.first_class {dh : Dirhash} (hD : D.Ok) (hs : Stats D.listing dh) {k : Nat}
    (hk : k ≤ dhNfstats) : First (fun b => freeClass D b = k) D.nblocks (dh.dhFirstfree k) := by
  have hfirst := hs.first k hk
  rw [hs.blks] at hfirst
  exact hfirst.congr (fun b hb => by rw [hs.class_eq hD hb])

/-! ## The search -/

theorem dirsiz_eq (hfmt : D.ofsfmt = false) (o : Nat) : directsiz (D.dNamlen o) = D.dirsiz o := by
  rw [Directory.dirsiz, Directory.namlen, hfmt]
  rfl

/-- The records before the first one with room are full. -/
theorem firstRoom_spec (hfmt : D.ofsfmt = false) (pos : Nat) : ∀ (os : List Nat) (fuel i : Nat),
    dirblksiz - i < fuel → Tiles D (pos + i) os (pos + dirblksiz) →
    ∃ pre post, os = pre ++ post ∧ (pre.map (unused D)).sum = 0 ∧
      firstRoom D pos fuel i = some (i + (pre.map D.dReclen).sum)
  | os, 0, i, hfuel, _ => absurd hfuel (Nat.not_lt_zero _)
  | [], fuel + 1, i, _, h => by
    refine ⟨[], [], rfl, rfl, ?_⟩
    rw [firstRoom, if_neg (by have : pos + i = pos + dirblksiz := h; omega)]
    rfl
  | o :: os, fuel + 1, i, hfuel, h => by
    have hpos := h.pos List.mem_cons_self
    have hmem := h.mem List.mem_cons_self
    rcases h with ⟨rfl, -, hsiz, hrest⟩
    rw [firstRoom, if_pos (by omega), if_neg (by omega), dirsiz_eq hfmt]
    split
    case isTrue => exact ⟨[], _, rfl, rfl, rfl⟩
    case isFalse hfull =>
    rw [not_or] at hfull
    obtain ⟨pre, post, rfl, hzero, hfound⟩ := firstRoom_spec hfmt pos os fuel
      (i + D.dReclen (pos + i)) (by omega) (by rwa [← Nat.add_assoc])
    refine ⟨(pos + i) :: pre, post, rfl, ?_, ?_⟩
    · rw [List.map_cons, List.sum_cons, hzero, unused, if_neg hfull.1]
      omega
    · rw [hfound, List.map_cons, List.sum_cons, Nat.add_assoc]

/-- The records from there on are taken until there is enough. -/
theorem gather_spec (hfmt : D.ofsfmt = false) (pos n : Nat) :
    ∀ (os : List Nat) (fuel i free : Nat),
    dirblksiz - i < fuel → Tiles D (pos + i) os (pos + dirblksiz) →
    n ≤ free + (os.map (unused D)).sum →
      ∃ mid post, os = mid ++ post ∧ n ≤ free + (mid.map (unused D)).sum ∧
        gather D pos n fuel i free =
          some (i + (mid.map D.dReclen).sum, ((free + (mid.map (unused D)).sum : Nat) : Int))
  | os, 0, i, free, hfuel, _, _ => absurd hfuel (Nat.not_lt_zero _)
  | [], fuel + 1, i, free, _, h, hn => by
    refine ⟨[], [], rfl, hn, ?_⟩
    rw [gather, if_neg (by have : pos + i = pos + dirblksiz := h; omega)]
    rfl
  | o :: os, fuel + 1, i, free, hfuel, h, hn => by
    have hpos := h.pos List.mem_cons_self
    have hmem := h.mem List.mem_cons_self
    rcases h with ⟨rfl, -, hsiz, hrest⟩
    rw [gather]
    split
    case isFalse henough =>
      exact ⟨[], _, rfl, by simp only [List.map_nil, List.sum_nil]; omega, rfl⟩
    case isTrue =>
    have hfree : ((free : Int) + D.dReclen (pos + i) -
        ((if D.dIno (pos + i) ≠ 0 then directsiz (D.dNamlen (pos + i)) else 0 : Nat) : Int)) =
        ((free + unused D (pos + i) : Nat) : Int) := by
      rw [dirsiz_eq hfmt, unused]
      by_cases hino : D.dIno (pos + i) = 0
      · rw [if_neg (not_not.2 hino), if_pos hino]
        omega
      · rw [if_pos hino, if_neg hino]
        omega
    rw [if_neg (by omega), hfree]
    rw [List.map_cons, List.sum_cons, ← Nat.add_assoc] at hn
    obtain ⟨mid, post, rfl, henough, hfound⟩ := gather_spec hfmt pos n os fuel
      (i + D.dReclen (pos + i)) _ (by omega) (by rwa [← Nat.add_assoc]) hn
    refine ⟨(pos + i) :: mid, post, rfl, ?_, ?_⟩
    · rw [List.map_cons, List.sum_cons]
      omega
    · rw [hfound]
      simp only [List.map_cons, List.sum_cons, Nat.add_assoc]

theorem howmany_le {n f : Nat} : howmany n diralign ≤ f ↔ n ≤ 4 * f := by
  unfold howmany diralign
  omega

/-- What is found with statistics that are exact. -/
theorem findfree_spec {dh : Dirhash} (hD : D.Ok) (hfmt : D.ofsfmt = false)
    (hs : Stats D.listing dh) (blkatoff : Nat → Option Nat) (n : Nat) :
    ∃ r, findfree D dh blkatoff n = some r ∧
      match r with
      | some (start, size) => HasRoom D n start size
      | none => (∃ b < D.nblocks, (blkatoff (b * dirblksiz)).isSome = true) ∨
          ∀ b < D.nblocks, freeClass D b < howmany n diralign ∧
            (n ≤ diralign * dhNfstats → freeBytes D b < n) := by
  unfold findfree
  dsimp only
  cases hfind : (List.range' (howmany n diralign)
      (dhNfstats + 1 - howmany n diralign)).findSome? dh.dhFirstfree with
  | none =>
    refine ⟨none, rfl, .inr fun b hb => ?_⟩
    rw [List.findSome?_eq_none_iff] at hfind
    have hle : freeClass D b ≤ dhNfstats := by
      unfold freeClass blkfree2idx
      split <;> omega
    have hlt : freeClass D b < howmany n diralign := by
      by_contra hge
      have hfirst := hs.first_class hD hle
      rw [hfind _ (List.mem_range'_1.2 (by omega))] at hfirst
      simpa using hfirst b hb
    refine ⟨hlt, fun hn => ?_⟩
    have hbytes := hs.blkfree_eq hD hb
    rw [hs.class_eq hD hb, blkfree2idx] at hlt
    have hmost := howmany_le.2 hn
    split at hlt
    · omega
    · have := mt howmany_le.2 (not_le.2 hlt)
      omega
  | some b =>
    obtain ⟨k, hk, hfirst⟩ := List.exists_of_findSome?_eq_some hfind
    rw [List.mem_range'_1] at hk
    have hclass := hs.first_class hD (show k ≤ dhNfstats by omega)
    rw [hfirst] at hclass
    have hb := hclass.1
    have hwords : howmany n diralign ≤ dh.dhBlkfree b := by
      have hidx := of_decide_eq_true hclass.2.1
      rw [hs.class_eq hD hb, blkfree2idx] at hidx
      split at hidx <;> omega
    have hroom : n ≤ 0 + ((D.records b).map (unused D)).sum := by
      have := hs.blkfree_eq hD hb
      rw [Nat.zero_add, show ((D.records b).map (unused D)).sum = freeBytes D b from rfl, ← this]
      exact howmany_le.1 hwords
    have hbelow : b < dh.dhNblk := by
      have hblks : dh.dhDirblks = D.nblocks := hs.blks
      exact hblks ▸ hb |>.trans_le hs.nblk
    dsimp only
    rw [if_neg (not_not.2 ⟨hbelow, hwords⟩)]
    by_cases hread : (blkatoff (b * dirblksiz)).isSome = true
    · exact ⟨none, if_pos hread, .inl ⟨b, hb, hread⟩⟩
    rw [if_neg hread, Nat.mul_comm b]
    have htile := hD.tiles b hb
    rw [Nat.mul_add, Nat.mul_one] at htile
    obtain ⟨pre, post, hrecords, hzero, hstart⟩ :=
      firstRoom_spec hfmt (dirblksiz * b) _ (dirblksiz + 1) 0 (by omega) htile
    rw [hrecords] at htile hroom
    have hrest := htile.split
    have hlen := htile.reclen_sum
    rw [List.map_append, List.sum_append] at hroom hlen
    rw [hzero, Nat.zero_add] at hroom
    obtain ⟨os, post, rfl, henough, hgather⟩ := gather_spec hfmt (dirblksiz * b) n post
      (dirblksiz + 1) (0 + (pre.map D.dReclen).sum) 0 (by omega) (by rwa [Nat.zero_add]) hroom
    rw [hstart]
    dsimp only
    rw [if_neg (by omega)]
    rw [Nat.cast_zero] at hgather
    rw [hgather]
    dsimp only
    rw [List.map_append, List.sum_append] at hlen
    rw [if_neg (by omega), if_neg (by omega)]
    refine ⟨_, rfl, b, hb, pre, os, post, by rw [hrecords, List.append_assoc], ?_, ?_, ?_⟩
    · rw [Nat.zero_add]
    · omega
    · rwa [Nat.zero_add] at henough

/-- However the directory changes, the statistics of a hash that is told of every change
    are exact, and nothing panics. -/
theorem dirhash_stats_exact (D : Directory) (hD : D.Ok) (ops : List Op)
    (hm : EveryStep Session.exec Mirrors ⟨D, .null⟩ ops) :
    ∃ s, runOps Session.exec ⟨D, .null⟩ ops = some s ∧
      ∀ dh, s.h = .hashed dh → Exact s.D dh := by
  rcases run_ok hD hm with ⟨s, hrun, hs⟩
  refine ⟨s, hrun, fun dh hdh => ?_⟩
  have hhash := hs.hash
  rw [hdh] at hhash
  exact {
    blkfree := fun b hb => (Nat.mul_comm _ _).trans (hhash.stats.blkfree_eq hs.dir hb)
    firstfree := fun k hk => hhash.stats.first_class hs.dir hk
    found := findfree_spec hs.dir (hs.ofsfmt dh hdh) hhash.stats }

theorem dirhash_stats_exact_one_name :
    ∃ s, runOps Session.exec ⟨oneRecord 0, .null⟩ oneNameOps = some s ∧
      ∀ dh, s.h = .hashed dh → Exact s.D dh :=
  dirhash_stats_exact (oneRecord 0) (oneRecord_ok 0) oneNameOps oneNameOps_mirrored

/-- A whole block is free, but it cannot be read. -/
theorem findfree_gives_up :
    ¬∀ (D : Directory), D.Ok → ∀ ops, EveryStep Session.exec Mirrors ⟨D, .null⟩ ops →
      ∀ s, runOps Session.exec ⟨D, .null⟩ ops = some s → ∀ dh, s.h = .hashed dh →
        ∀ blkatoff n, findfree s.D dh blkatoff n = some none →
          ∀ b < s.D.nblocks, freeClass s.D b < howmany n diralign := by
  intro h
  have hrun : runOps Session.exec ⟨oneRecord 0, .null⟩ [.build ⟨false, 0, 1, true, 0⟩] =
      some ⟨oneRecord 0, .hashed (emptyHash (oneRecord 0) 0)⟩ := rfl
  have hno := h (oneRecord 0) (oneRecord_ok 0) [.build ⟨false, 0, 1, true, 0⟩]
    ⟨by show 0 < dirblksiz; decide, fun _ _ => trivial⟩ _ hrun _ rfl (fun _ => some 5) 12
    (by decide) 0 (by decide)
  exact absurd hno (by decide)

end FreeBSDKern.Dir
