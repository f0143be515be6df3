import FreeBSDKern.Dir.Hash

/-!
# Free Space of a Directory

What the hash knows about the free space of a directory: the free words of each block,
and the first block with so many of them. Both are functions of the names and of where
they are, which is what a `Listing` is. The records of the blocks do not matter here, only
that the names of a block have room in it.

## Main definitions

* `Listing`: Names by offset, and the number of blocks.
* `blockUse`: The bytes that the names of a block need.
* `First`: The first number with a property, if there is one.
* `Stats`: The free space that the hash knows of is the one that there is.

## Theorems

* `blockUse_update`: The bytes needed when one offset changes.
* `Stats.adjfree`, `Stats.newblk`, `Stats.dirtrunc`: The statistics after a change.
-/

namespace FreeBSDKern.Dir

open Lib Function

structure Listing where
  dirblks : Nat
  live : Nat → Option Name

/-- The bytes that a name needs. -/
def cost : Option Name → Nat
  | none => 0
  | some n => directsiz n.length

/-- The bytes that the names of a block need. -/
def blockUse (live : Nat → Option Name) (b : Nat) : Nat :=
  ∑ i ∈ Finset.range dirblksiz, cost (live (dirblksiz * b + i))

/-- Names have room in their blocks, and no name is there twice. -/
structure Listing.Ok (L : Listing) : Prop where
  bound : ∀ {o n}, L.live o = some n → o < dirblksiz * L.dirblks
  room : ∀ b, blockUse L.live b ≤ dirblksiz
  names : ∀ {o o' n}, L.live o = some n → L.live o' = some n → o = o'

theorem cost_mod (v : Option Name) : cost v % 4 = 0 := by
  cases v with
  | none => rfl
  | some n => exact directsiz_mod _

theorem blockUse_update (live : Nat → Option Name) (o : Nat) (v : Option Name) :
    blockUse (update live o v) (o / dirblksiz) + cost (live o) =
      blockUse live (o / dirblksiz) + cost v := by
  have hpos : o % dirblksiz ∈ Finset.range dirblksiz :=
    Finset.mem_range.mpr (Nat.mod_lt _ (by decide))
  have hself : dirblksiz * (o / dirblksiz) + o % dirblksiz = o := Nat.div_add_mod o dirblksiz
  have hold := Finset.add_sum_erase (Finset.range dirblksiz)
    (fun i => cost (live (dirblksiz * (o / dirblksiz) + i))) hpos
  have hnew := Finset.add_sum_erase (Finset.range dirblksiz)
    (fun i => cost (update live o v (dirblksiz * (o / dirblksiz) + i))) hpos
  have hrest : ∀ i ∈ (Finset.range dirblksiz).erase (o % dirblksiz),
      cost (update live o v (dirblksiz * (o / dirblksiz) + i)) =
        cost (live (dirblksiz * (o / dirblksiz) + i)) := by
    intro i hi
    have hne : dirblksiz * (o / dirblksiz) + i ≠ o := by
      have := Finset.ne_of_mem_erase hi
      omega
    rw [update_of_ne hne]
  rw [Finset.sum_congr rfl hrest] at hnew
  simp only [hself, update_self] at hold hnew
  rw [blockUse, blockUse, ← hold, ← hnew]
  omega

variable {b n : Nat} {p q : Nat → Bool} {r : Option Nat} {dh : Dirhash} {L : Listing}

theorem blockUse_update_of_ne (live : Nat → Option Name) {o : Nat} (v : Option Name)
    (hb : b ≠ o / dirblksiz) : blockUse (update live o v) b = blockUse live b := by
  refine Finset.sum_congr rfl (fun i hi => ?_)
  have hlt := Finset.mem_range.mp hi
  have hne : dirblksiz * b + i ≠ o := by
    intro heq
    apply hb
    rw [← heq, Nat.mul_add_div (by decide), Nat.div_eq_of_lt hlt, Nat.add_zero]
  rw [update_of_ne hne]

/-! ## The first number with a property -/

/-- The first number below `n` with a property, if there is one. -/
def First (p : Nat → Bool) (n : Nat) : Option Nat → Prop
  | some b => b < n ∧ p b = true ∧ ∀ c < b, p c = false
  | none => ∀ c < n, p c = false

theorem First.congr (h : First p n r) (hpq : ∀ c < n, p c = q c) : First q n r := by
  cases r with
  | none =>
    intro c hc
    rw [← hpq c hc]
    exact h c hc
  | some b =>
    rcases h with ⟨hb, hp, hbefore⟩
    refine ⟨hb, by rwa [← hpq b hb], fun c hc => ?_⟩
    rw [← hpq c (lt_trans hc hb)]
    exact hbefore c hc

theorem First.of_scan (hbefore : ∀ c ≤ b, p c = false) :
    First p n ((List.range' (b + 1) (n - (b + 1))).find? p) := by
  cases hfind : (List.range' (b + 1) (n - (b + 1))).find? p with
  | none =>
    intro c hc
    rw [List.find?_eq_none] at hfind
    rcases lt_or_ge b c with hlt | hge
    · exact Bool.eq_false_iff.mpr (hfind c (List.mem_range'_1.mpr (by omega)))
    · exact hbefore c hge
  | some c =>
    rcases List.find?_range'_eq_some.mp hfind with ⟨hp, hmem, hfirst⟩
    rw [List.mem_range'_1] at hmem
    refine ⟨by omega, hp, fun d hd => ?_⟩
    rcases lt_or_ge b d with hlt | hge
    · simpa using hfirst d hlt hd
    · exact hbefore d hge

/-- A number loses the property, and the first one is looked for behind it. -/
theorem First.remove (h : First p n r) (hpb : p b = true) (hqb : q b = false)
    (hpq : ∀ c, c ≠ b → p c = q c) (hb : b < n) :
    First q n (if r = some b then (List.range' (b + 1) (n - (b + 1))).find? q else r) := by
  split
  case isTrue heq =>
    rw [heq] at h
    refine First.of_scan (fun c hc => ?_)
    rcases Nat.lt_or_eq_of_le hc with hlt | rfl
    · rw [← hpq c (ne_of_lt hlt)]
      exact h.2.2 c hlt
    · exact hqb
  case isFalse hne =>
  cases r with
  | none => exact absurd ((h b hb).symm.trans hpb) Bool.false_ne_true
  | some c =>
    rcases h with ⟨hc, hp, hbefore⟩
    have hcb : c ≠ b := fun heq => hne (by rw [heq])
    have hlt : c < b := by
      by_contra hge
      exact absurd ((hbefore b (by omega)).symm.trans hpb) Bool.false_ne_true
    refine ⟨hc, ?_, fun d hd => ?_⟩
    · rwa [← hpq c hcb]
    · rw [← hpq d (by omega)]
      exact hbefore d hd

/-- A number gets the property. -/
theorem First.insert (h : First p n r) (hpb : p b = false) (hqb : q b = true)
    (hpq : ∀ c, c ≠ b → p c = q c) (hb : b < n) :
    First q n (if r.all (fun i => i > b) then some b else r) := by
  split
  case isTrue hall =>
    refine ⟨hb, hqb, fun c hc => ?_⟩
    rw [← hpq c (by omega)]
    cases r with
    | none => exact h c (by omega)
    | some d =>
      have hgt : d > b := by simpa using hall
      exact h.2.2 c (by omega)
  case isFalse hall =>
  cases r with
  | none => exact absurd rfl hall
  | some d =>
    rcases h with ⟨hd, hp, hbefore⟩
    have hle : d ≤ b := by simpa using hall
    have hdb : d ≠ b := by
      rintro rfl
      rw [hpb] at hp
      exact absurd hp Bool.false_ne_true
    refine ⟨hd, ?_, fun c hc => ?_⟩
    · rwa [← hpq d hdb]
    · rw [← hpq c (by omega)]
      exact hbefore c hc

/-! ## Statistics -/

/-- The free space that the hash knows of is the one that there is. -/
structure Stats (L : Listing) (dh : Dirhash) : Prop where
  blks : dh.dhDirblks = L.dirblks
  nblk : dh.dhDirblks ≤ dh.dhNblk
  free : ∀ b < dh.dhDirblks, 4 * dh.dhBlkfree b + blockUse L.live b = dirblksiz
  first : ∀ i ≤ dhNfstats,
    First (fun b => blkfree2idx (dh.dhBlkfree b) = i) dh.dhDirblks (dh.dhFirstfree i)

/-- The free words of a block after a change. -/
theorem free_eq {f u u' c c' : Nat} {diff : Int} (hf : 4 * f + u = 512) (hu : u' + c = u + c')
    (hle : u' ≤ 512) (hc : c % 4 = 0) (hc' : c' % 4 = 0) (hdiff : diff = c - c') :
    4 * ((f + diff.tdiv diralign) % 2 ^ 8).toNat + u' = 512 := by
  have hdiv : diff.tdiv diralign = ((c / 4 : Nat) : Int) - ((c' / 4 : Nat) : Int) := by
    have hmul : diff = 4 * (((c / 4 : Nat) : Int) - ((c' / 4 : Nat) : Int)) := by omega
    rw [hmul]
    exact Int.mul_tdiv_cancel_left _ (by decide)
  rw [hdiv]
  omega

/-- The first free blocks after the words of one block have changed. -/
theorem first_adjfree {block free : Nat} (hb : block < dh.dhDirblks) (hfirst : ∀ i ≤ dhNfstats,
      First (fun b => blkfree2idx (dh.dhBlkfree b) = i) dh.dhDirblks (dh.dhFirstfree i))
    (hne : blkfree2idx (dh.dhBlkfree block) ≠ blkfree2idx free) {i : Nat} (hi : i ≤ dhNfstats) :
    let blkfree := update dh.dhBlkfree block free
    let ofidx := blkfree2idx (dh.dhBlkfree block)
    let nfidx := blkfree2idx free
    let firstfree := if dh.dhFirstfree ofidx = some block then
        update dh.dhFirstfree ofidx
          ((List.range' (block + 1) (dh.dhDirblks - (block + 1))).find?
            (fun i => blkfree2idx (blkfree i) = ofidx))
      else dh.dhFirstfree
    First (fun b => blkfree2idx (blkfree b) = i) dh.dhDirblks
      ((if (firstfree nfidx).all (fun i => i > block) then
          update firstfree nfidx (some block)
        else firstfree) i) := by
  intro blkfree ofidx nfidx firstfree
  have hself : blkfree block = free := update_self _ _ _
  have hother : ∀ c, c ≠ block → blkfree c = dh.dhBlkfree c :=
    fun c hc => update_of_ne hc _ _
  have hpq : ∀ c, c ≠ block → decide (blkfree2idx (dh.dhBlkfree c) = i) =
      decide (blkfree2idx (blkfree c) = i) := by
    intro c hc
    rw [hother c hc]
  -- The entry of the new index is not touched by the first of the two updates.
  have hnfidx : firstfree nfidx = dh.dhFirstfree nfidx := by
    simp only [firstfree]
    split
    · exact update_of_ne (Ne.symm hne) _ _
    · rfl
  have hfirstfree : firstfree ofidx = if dh.dhFirstfree ofidx = some block then
      (List.range' (block + 1) (dh.dhDirblks - (block + 1))).find?
        (fun i => blkfree2idx (blkfree i) = ofidx) else dh.dhFirstfree ofidx := by
    simp only [firstfree]
    split
    · exact update_self _ _ _
    · rfl
  have hold : ∀ k, k ≠ ofidx → firstfree k = dh.dhFirstfree k := by
    intro k hk
    simp only [firstfree]
    split
    · exact update_of_ne hk _ _
    · rfl
  by_cases hin : i = nfidx
  · subst hin
    have hins := (hfirst nfidx hi).insert (q := fun b => blkfree2idx (blkfree b) = nfidx)
      (decide_eq_false hne) (decide_eq_true (by rw [hself])) hpq hb
    rw [hnfidx]
    split
    case isTrue hall =>
      rw [if_pos hall] at hins
      rw [update_self]
      exact hins
    case isFalse hall =>
      rw [if_neg hall] at hins
      rw [hnfidx]
      exact hins
  have hsel : (if (firstfree nfidx).all (fun i => i > block) then
      update firstfree nfidx (some block) else firstfree) i = firstfree i := by
    split
    · exact update_of_ne hin _ _
    · rfl
  rw [hsel]
  by_cases hio : i = ofidx
  · subst hio
    rw [hfirstfree]
    exact (hfirst ofidx hi).remove (q := fun b => blkfree2idx (blkfree b) = ofidx)
      (decide_eq_true rfl) (decide_eq_false (by rw [hself]; exact Ne.symm hne)) hpq hb
  rw [hold i hio]
  refine (hfirst i hi).congr (fun c _ => ?_)
  by_cases hc : c = block
  · rw [hc, hself, decide_eq_false (fun heq => hio heq.symm),
      decide_eq_false (fun heq => hin heq.symm)]
  · exact hpq c hc

theorem Stats.adjfree (hs : Stats L dh) {o : Nat} (ho : o / dirblksiz < dh.dhDirblks)
    {v : Option Name} {diff : Int}
    (hroom : blockUse (update L.live o v) (o / dirblksiz) ≤ dirblksiz)
    (hdiff : diff = (cost (L.live o) : Int) - cost v) :
    Stats ⟨L.dirblks, update L.live o v⟩ (adjfree dh o diff) := by
  have hupdate := blockUse_update L.live o v
  have hfree := free_eq (hs.free _ ho) hupdate hroom (cost_mod _) (cost_mod _) hdiff
  -- The words of the blocks, in either branch.
  have hfree' : ∀ b < dh.dhDirblks, 4 * update dh.dhBlkfree (o / dirblksiz)
        ((dh.dhBlkfree (o / dirblksiz) + diff.tdiv diralign) % 2 ^ 8).toNat b +
          blockUse (update L.live o v) b = dirblksiz := by
    intro b hb
    by_cases hbo : b = o / dirblksiz
    · rw [hbo, update_self]
      exact hfree
    · rw [update_of_ne hbo, blockUse_update_of_ne _ _ hbo]
      exact hs.free b hb
  unfold Dir.adjfree
  dsimp only
  split
  case isTrue hne =>
    exact ⟨hs.blks, hs.nblk, hfree', fun i hi => first_adjfree ho hs.first hne hi⟩
  case isFalse heq =>
  refine ⟨hs.blks, hs.nblk, hfree', fun i hi => (hs.first i hi).congr (fun c _ => ?_)⟩
  by_cases hc : c = o / dirblksiz
  · rw [hc]
    simp only [update_self]
    rw [Decidable.not_not.mp heq]
  · simp only [update_of_ne hc]

/-- A block without names needs nothing. -/
theorem Listing.Ok.blockUse_zero (hL : L.Ok) (hb : L.dirblks ≤ b) : blockUse L.live b = 0 := by
  refine Finset.sum_eq_zero (fun i _ => ?_)
  cases hlive : L.live (dirblksiz * b + i) with
  | none => rfl
  | some n =>
    have hbound := hL.bound hlive
    have hmul : dirblksiz * L.dirblks ≤ dirblksiz * b := Nat.mul_le_mul_left _ hb
    omega

theorem First.extend (h : First p n r) (hn : p n = false) : First p (n + 1) r := by
  cases r with
  | none =>
    intro c hc
    rcases Nat.lt_or_eq_of_le (Nat.le_of_lt_succ hc) with hlt | rfl
    · exact h c hlt
    · exact hn
  | some b => exact ⟨Nat.lt_succ_of_lt h.1, h.2⟩

/-- The statistics after the directory has grown by a block. -/
theorem Stats.newblk (hs : Stats L dh) (hL : L.Ok) :
    ∃ h, newblk dh (dirblksiz * L.dirblks) = some h ∧
      (h = .null ∨ ∃ dh', h = .hashed dh' ∧ Stats ⟨L.dirblks + 1, L.live⟩ dh' ∧
        dh'.self = dh.self ∧ dh'.dhHash = dh.dhHash ∧ dh'.dhHlen = dh.dhHlen ∧
        dh'.dhHused = dh.dhHused) := by
  have hblock : dirblksiz * L.dirblks / dirblksiz = L.dirblks :=
    Nat.mul_div_cancel_left _ (by decide)
  rw [Dir.newblk, hblock]
  split
  case isTrue => exact ⟨.null, rfl, .inl rfl⟩
  case isFalse hlt =>
  refine ⟨_, rfl, .inr ⟨_, rfl, ⟨rfl, Nat.lt_of_not_le hlt, ?_, ?_⟩, rfl, rfl, rfl, rfl⟩⟩
  · intro b hb
    dsimp only at hb ⊢
    by_cases hbl : b = L.dirblks
    · rw [hbl, update_self, hL.blockUse_zero le_rfl]
      decide
    · rw [update_of_ne hbl]
      exact hs.free b (by rw [hs.blks]; omega)
  intro i hi
  dsimp only
  have hfirst := hs.first i hi
  rw [hs.blks] at hfirst
  -- The blocks that were there have the words that they had.
  have hsame : First (fun b => blkfree2idx (update dh.dhBlkfree L.dirblks
      (dirblksiz / diralign) b) = i) L.dirblks (dh.dhFirstfree i) := by
    refine hfirst.congr (fun c hc => ?_)
    rw [update_of_ne (ne_of_lt hc)]
  by_cases hfull : i = dhNfstats
  · rw [hfull] at hsame ⊢
    cases hnone : dh.dhFirstfree dhNfstats with
    | none =>
      rw [if_pos rfl, update_self]
      rw [hnone] at hsame
      refine ⟨Nat.lt_succ_self _, decide_eq_true ?_, fun c hc => hsame c hc⟩
      rw [update_self]
      decide
    | some b =>
      rw [if_neg (by simp only [reduceCtorEq, not_false_eq_true])]
      rw [hnone] at hsame ⊢
      exact ⟨Nat.lt_succ_of_lt hsame.1, hsame.2⟩
  have hsel : (if dh.dhFirstfree dhNfstats = none then
      update dh.dhFirstfree dhNfstats (some L.dirblks) else dh.dhFirstfree) i =
      dh.dhFirstfree i := by
    split
    · exact update_of_ne hfull _ _
    · rfl
  rw [hsel]
  refine hsame.extend (decide_eq_false ?_)
  rw [update_self]
  exact fun heq => hfull (heq.symm.trans (by decide))

/-- The statistics after blocks without names have been cut off. Nothing panics. -/
theorem Stats.dirtrunc (hs : Stats L dh) {k : Nat} (hk : k ≤ L.dirblks)
    (hL : Listing.Ok ⟨k, L.live⟩) : ∃ h, dirtrunc dh (dirblksiz * k) = some h ∧
      (h = .null ∨ ∃ dh', h = .hashed dh' ∧ Stats ⟨k, L.live⟩ dh' ∧
        dh'.self = dh.self ∧ dh'.dhHash = dh.dhHash ∧ dh'.dhHlen = dh.dhHlen ∧
        dh'.dhHused = dh.dhHused) := by
  have hblock : (dirblksiz * k + (dirblksiz - 1)) / dirblksiz = k := by
    rw [Nat.mul_add_div (by decide)]
    exact Nat.add_zero k
  -- The blocks that go are unused.
  have hunused : ∀ b, k ≤ b → b < dh.dhDirblks → dh.dhBlkfree b = dirblksiz / diralign := by
    intro b hb hlt
    have hfree := hs.free b hlt
    rw [hL.blockUse_zero hb] at hfree
    have hsize : dirblksiz = 4 * (dirblksiz / diralign) := by decide
    omega
  have hbelow : ∀ i < dhNfstats, ∀ b, dh.dhFirstfree i = some b → b < k := by
    intro i hi b hb
    have hfirst := hs.first i (le_of_lt hi)
    rw [hb] at hfirst
    by_contra hge
    have hidx := of_decide_eq_true hfirst.2.1
    rw [hunused b (by omega) hfirst.1] at hidx
    have hfull : blkfree2idx (dirblksiz / diralign) = dhNfstats := by decide
    omega
  rw [Dir.dirtrunc, hblock]
  split
  case isTrue => exact ⟨.null, rfl, .inl rfl⟩
  case isFalse =>
  have hany : (List.range' k (dh.dhDirblks - k)).any
      (fun i => dh.dhBlkfree i ≠ dirblksiz / diralign) = false := by
    rw [List.any_eq_false]
    intro b hb
    rw [List.mem_range'_1] at hb
    simp [hunused b hb.1 (by omega)]
  have hsel : ∀ i < dhNfstats, (if (dh.dhFirstfree dhNfstats).any (fun i => i ≥ k) then
      update dh.dhFirstfree dhNfstats none else dh.dhFirstfree) i = dh.dhFirstfree i := by
    intro i hi
    split
    · exact update_of_ne (ne_of_lt hi) _ _
    · rfl
  have hany' : (List.range dhNfstats).any (fun i => ((if (dh.dhFirstfree dhNfstats).any
      (fun i => i ≥ k) then update dh.dhFirstfree dhNfstats none
        else dh.dhFirstfree) i).any (fun b => b ≥ k)) = false := by
    rw [List.any_eq_false]
    intro i hi
    rw [List.mem_range] at hi
    rw [hsel i hi]
    cases hb : dh.dhFirstfree i with
    | none => simp
    | some b => simpa using hbelow i hi b hb
  rw [if_neg (by rw [hany]; exact Bool.false_ne_true), if_neg (by rw [hany']; exact Bool.false_ne_true)]
  refine ⟨_, rfl, .inr ⟨_, rfl, ⟨rfl, ?_, ?_, ?_⟩, rfl, rfl, rfl, rfl⟩⟩
  · exact le_trans hk (hs.blks ▸ hs.nblk)
  · intro b hb
    exact hs.free b (by rw [hs.blks]; exact lt_of_lt_of_le hb hk)
  intro i hi
  dsimp only
  have hfirst := hs.first i hi
  rcases Nat.lt_or_eq_of_le hi with hlt | rfl
  · rw [hsel i hlt]
    cases hb : dh.dhFirstfree i with
    | none =>
      rw [hb] at hfirst
      exact fun c hc => hfirst c (by rw [hs.blks]; omega)
    | some b =>
      rw [hb] at hfirst
      exact ⟨hbelow i hlt b hb, hfirst.2⟩
  cases hb : dh.dhFirstfree dhNfstats with
  | none =>
    rw [hb] at hfirst
    simp only [Option.any_none, Bool.false_eq_true, if_false, hb]
    exact fun c hc => hfirst c (by rw [hs.blks]; omega)
  | some b =>
    rw [hb] at hfirst
    by_cases hge : b ≥ k
    · simp only [Option.any_some, hge, decide_true, if_true, update_self]
      exact fun c hc => hfirst.2.2 c (by omega)
    · simp only [Option.any_some, hge, decide_false, Bool.false_eq_true, if_false, hb]
      exact ⟨by omega, hfirst.2⟩

end FreeBSDKern.Dir
