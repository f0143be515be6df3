import FreeBSDKern.Ffs.Account

/-!
# Runs of the Allocator

The calls that allocate and free in a cylinder group, one by one, and then in any
order. Each of them is made of the four kinds of change to the map, so it keeps the
counts, the map of the clusters and the summaries in memory.

Block 0 stands for no block and for no preference. A cluster that began with it
could not be taken as it was found. Where block 0 is in use, as it is in every file
system, no call ends in a panic.

## Main definitions

* `ValidAlloc`: What the callers see to.

## Theorems

* `alloccgblk_ok`, `alloccg_ok`, `fragextend_ok`, `ffsClusteralloc_ok`,
  `blkfreeCg_ok`: The calls.
* `execAlloc_ok`: One call.
* `counts_kept`: Every run.
-/

namespace FreeBSDKern.Ffs

open Lib

variable {fs : Layout} {v : Vol}

/-! ## The calls -/

/-- Nothing becomes free. -/
def Less (v v' : Vol) : Prop := ∀ d f, v'.bit d f = true → v.bit d f = true

/-- What a caller that allocates is left with. -/
def Left (fs : Layout) (v v' : Vol) : Prop := VolOk fs v' ∧ Less v v'

theorem VolOk.left (h : VolOk fs v) : Left fs v v := ⟨h, fun _ _ hset => hset⟩

/-- A whole number of blocks is before a place, and it stays so inside the group. -/
theorem LayoutOk.blknum_mod (hl : LayoutOk fs) (p : Nat) :
    p / fs.frag * fs.frag % fs.fpg = p % fs.fpg / fs.frag * fs.frag := by
  rcases hl.fpg with ⟨m, hm⟩
  rw [hm, Nat.mul_comm fs.frag m, Nat.mul_mod_mul_right, Nat.mul_comm m fs.frag,
    Nat.mod_mul_right_div_self]

theorem Accounted.nbfree_pos {fs : Fs} {cg : Cg} (h : Accounted fs cg) {b : Nat}
    (hb : b < fs.mapBlks) (hwhole : WholeFree cg.isFree fs.frag b) : 0 < cg.nbfree := by
  rw [h.nbfree, Int.natCast_pos, Finset.card_pos]
  exact ⟨b, Finset.mem_filter.mpr ⟨Finset.mem_range.mpr hb, hwhole⟩⟩

theorem allocsizLoop_le (frsum : Nat → Int) (frag fuel : Nat) : ∀ allocsiz, allocsiz ≤ frag →
    allocsizLoop frsum frag fuel allocsiz ≤ frag := by
  induction fuel with
  | zero => exact fun a ha => ha
  | succ fuel ih =>
    intro a ha
    unfold allocsizLoop
    by_cases hlt : a < frag
    · rw [if_pos hlt]
      by_cases hsum : frsum a ≠ 0
      · rw [if_pos hsum]
        exact ha
      · rw [if_neg hsum]
        exact ih (a + 1) hlt
    · rw [if_neg hlt]
      exact ha

section

variable {scanc : Nat → (Nat → BitVec 8) → (BitVec 8 → BitVec 8) → BitVec 8 → Nat}
  (hscan : Scans scanc) (hl : LayoutOk fs)

include hscan hl

variable {c size : Nat}

/-- A group with a free block gives one away, and the preferred one if it is free. -/
theorem alloccgblk_ok (h : VolOk fs v) (hc : c < fs.ncg) (bpref : Nat)
    (hsize : 0 < fs.numfrags size) (hle : fs.numfrags size ≤ fs.frag)
    (hnb : 0 < (v.groups c).cg.nbfree) :
    ∃ b v', alloccgblk scanc fs v c bpref size = some (fs.cgbase c + b * fs.frag, v') ∧
      VolOk fs v' ∧ Takes fs v v' c b ∧
      (bpref ≠ 0 → bpref / fs.fpg = c → WholeFree (v.bit c) fs.frag (bpref % fs.fpg / fs.frag) →
        b = bpref % fs.fpg / fs.frag) := by
  have hpos := hl.pos
  have hg := h.group c hc
  have hfpg : 0 < fs.fpg := Nat.zero_lt_of_lt hg.counts.rotor
  unfold alloccgblk
  simp only
  rw [hl.blknum_mod, Nat.mul_div_cancel _ hpos]
  by_cases hfree : isblock fs.frag (v.groups c).cg.blksfree
      (blockPref fs (v.groups c) c bpref % fs.fpg / fs.frag) = true
  · -- The preferred block.
    rw [if_pos hfree]
    rcases h.takeBlock hl hc hg ⟨rfl, rfl, rfl⟩ (hl.block_lt (Nat.mod_lt _ hfpg))
      ((isblock_iff hl.frag _ _).mp hfree) hsize hle with ⟨v', hrun, hv', htakes⟩
    refine ⟨_, v', congrArg some hrun, hv', htakes, fun hne hgroup _ => ?_⟩
    rw [blockPref, if_neg hne, if_neg (fun hc => hc hgroup)]
  rw [if_neg hfree]
  rcases hg.counts.search hscan hl.frag (blockPref fs (v.groups c) c bpref) (Or.inr ⟨rfl, hnb⟩)
    with ⟨b, pos, cg', hrun, hmax, hin, ⟨rotor, rfl⟩, hacc⟩
  -- As long as a block, the run is one.
  have hzero : pos = 0 := by
    have := hmax.1
    omega
  subst hzero
  have hwhole : WholeFree (v.groups c).cg.isFree fs.frag b := fun j hj => hmax.2.1 j hj
  have hb : b < fs.toFs.mapBlks := by
    have hlt : b * fs.frag < fs.fpg := by
      have := hg.counts.ndblk
      change b * fs.frag + 0 + fs.frag ≤ _ at hin
      omega
    have := hl.block_lt hlt
    rwa [Nat.mul_div_cancel _ hpos] at this
  rw [hrun]
  simp only [Nat.add_zero]
  rcases h.takeBlock hl hc (hg.same hacc rfl (fun _ => Iff.rfl)
    (if b * fs.frag ≥ fs.cgdata c % fs.fpg then b * fs.frag else (v.groups c).rotor))
    ⟨rfl, rfl, rfl⟩ hb hwhole hsize hle with ⟨v', hrun, hv', htakes⟩
  refine ⟨b, v', congrArg some hrun, hv', htakes, fun hne hgroup hpref => ?_⟩
  rw [blockPref, if_neg hne, if_neg (fun hc => hc hgroup)] at hfree
  exact absurd ((isblock_iff hl.frag _ _).mpr hpref) hfree

theorem alloccg_ok (h : VolOk fs v) (readable : Bool) (hc : c < fs.ncg) (bpref : Nat) {rsize : Nat}
    (hsize : 0 < fs.numfrags size) (hle : fs.numfrags size ≤ fs.frag) (hr : 0 < fs.numfrags rsize)
    (hrle : fs.numfrags rsize ≤ fs.frag) :
    ∃ r v', alloccg scanc fs v readable c bpref size rsize = some (r, v') ∧ Left fs v v' := by
  have hg := h.group c hc
  have hblk : 0 < (v.groups c).cg.nbfree → ∃ r v',
      alloccgblk scanc fs v c bpref rsize = some (r, v') ∧ Left fs v v' := by
    intro hnb
    rcases alloccgblk_ok hscan hl h hc bpref hr hrle hnb with ⟨b, v', hrun, hv', htakes, -⟩
    exact ⟨_, v', hrun, hv', htakes.less⟩
  have hnonneg : 0 ≤ (v.groups c).cg.nbfree := by
    rw [hg.counts.nbfree]
    exact Int.natCast_nonneg _
  unfold alloccg
  simp only
  by_cases hnone : (v.cs c).nbfree = 0 ∧ size = fs.bsize
  · rw [if_pos hnone]
    exact ⟨0, v, rfl, h.left⟩
  rw [if_neg hnone]
  by_cases hfail : readable = false ∨ ((v.groups c).cg.nbfree = 0 ∧ size = fs.bsize)
  · rw [if_pos hfail]
    exact ⟨0, v, rfl, h.left⟩
  rw [if_neg hfail]
  by_cases hwhole : size = fs.bsize
  · rw [if_pos hwhole]
    have hne : (v.groups c).cg.nbfree ≠ 0 := fun hzero => hfail (Or.inr ⟨hzero, hwhole⟩)
    exact hblk (by omega)
  rw [if_neg hwhole]
  rcases allocsizLoop_spec (v.groups c).cg.frsum fs.frag fs.frag (fs.numfrags size)
    (Nat.le_add_left _ _) with ⟨hge, hcount⟩
  have hend := allocsizLoop_le (v.groups c).cg.frsum fs.frag fs.frag _ hle
  generalize allocsizLoop (v.groups c).cg.frsum fs.frag fs.frag (fs.numfrags size) = a
    at hge hcount hend ⊢
  by_cases hnofrag : a = fs.frag
  · -- No fragments are available.
    rw [if_pos hnofrag]
    by_cases hzero : (v.groups c).cg.nbfree = 0
    · rw [if_pos hzero]
      exact ⟨0, v, rfl, h.left⟩
    · rw [if_neg hzero]
      exact hblk (by omega)
  rw [if_neg hnofrag]
  have hlt : a < fs.frag := by omega
  have hsum : 0 < (v.groups c).cg.frsum a := by
    have := hcount hlt
    rw [hg.counts.frsum a (by omega) hlt] at this ⊢
    omega
  rcases hg.counts.search hscan hl.frag bpref (Or.inl ⟨by omega, hlt, hsum⟩) with
    ⟨b, pos, cg', hrun, hmax, hin, ⟨rotor, rfl⟩, hacc⟩
  have hb : b < fs.toFs.mapBlks := by
    have hplace : b * fs.frag + pos < fs.fpg := by
      have := hg.counts.ndblk
      change b * fs.frag + pos + a ≤ _ at hin
      omega
    have hdiv := (div_block hl.pos b (b * fs.frag + pos)).mpr ⟨pos, by have := hmax.1; omega, rfl⟩
    have := hl.block_lt hplace
    rwa [hdiv] at this
  rcases h.takeRun hl hc (hg.same hacc rfl (fun _ => Iff.rfl) (v.groups c).rotor) ⟨rfl, rfl, rfl⟩
    hmax hlt hsize hge (fun k => bumpSum_take (v.groups c).cg.frsum a (a - fs.numfrags size) k
      (fs.numfrags size ≠ a)) hb with ⟨hv', htakes⟩
  rw [hrun]
  exact ⟨_, _, rfl, hv', htakes.less⟩

end

/-- Fragments that end no earlier in their block than they begin are all in it. -/
theorem LayoutOk.within_block (hl : LayoutOk fs) {bno n : Nat} (hle : n ≤ fs.frag)
    (hcross : ¬ bno % fs.frag > (bno + n - 1) % fs.frag) : bno % fs.frag + n ≤ fs.frag := by
  have hlt := Nat.mod_lt bno hl.pos
  have hdiv := Nat.div_add_mod bno fs.frag
  by_contra hover
  have hnext : bno + n - 1 = fs.frag * (bno / fs.frag) + fs.frag +
      (bno % fs.frag + n - 1 - fs.frag) := by omega
  have hsmall : bno % fs.frag + n - 1 - fs.frag < fs.frag := by omega
  rw [hnext, ← Nat.mul_succ, Nat.mul_add_mod, Nat.mod_eq_of_lt hsmall] at hcross
  omega

/-- Fragments are put to the end of those a file has. -/
theorem fragextend_ok (hl : LayoutOk fs) (h : VolOk fs v) (readable : Bool) {bprev : Nat}
    (hc : c < fs.ncg) {osize nsize : Nat} (hold : 0 < fs.numfrags osize)
    (hmore : fs.numfrags osize < fs.numfrags nsize) (hle : fs.numfrags nsize ≤ fs.frag)
    (hin : bprev % fs.frag + fs.numfrags osize ≤ fs.frag)
    (hused : ∀ j < fs.numfrags osize, v.bit c (bprev % fs.fpg + j) = false) :
    Left fs v (fragextend fs v readable c bprev osize nsize).2 := by
  have hpos := hl.pos
  have hg := h.group c hc
  unfold fragextend
  simp only
  by_cases hfew : (v.cs c).nffree < fs.numfrags (nsize - osize)
  · rw [if_pos hfew]
    exact h.left
  rw [if_neg hfew]
  by_cases hcross : bprev % fs.frag > (bprev + fs.numfrags nsize - 1) % fs.frag
  · rw [if_pos hcross]
    exact h.left
  rw [if_neg hcross]
  by_cases hfail : readable = false
  · rw [if_pos hfail]
    exact h.left
  rw [if_neg hfail]
  have hfpg : 0 < fs.fpg := Nat.zero_lt_of_lt hg.counts.rotor
  -- The block of the fragments, and their place in it.
  have hlt := hl.block_lt (Nat.mod_lt bprev hfpg)
  have hdiv := Nat.div_add_mod (bprev % fs.fpg) fs.frag
  rw [Nat.mod_mod_of_dvd _ hl.fpg, Nat.mul_comm] at hdiv
  generalize bprev % fs.fpg / fs.frag = b at hlt hdiv
  have hfit := hl.within_block hle hcross
  rw [← hdiv] at hused ⊢
  generalize bprev % fs.frag = p at hin hdiv hfit hused ⊢
  generalize fs.numfrags osize = old at hold hmore hin hused ⊢
  generalize fs.numfrags nsize = n at hmore hle hfit ⊢
  rcases freeEnd_spec (v.groups c).cg.blksfree (b * fs.frag + p) (n - old) old with
    ⟨-, hle₁, hset₁, -⟩
  by_cases hshort : freeEnd (v.groups c).cg.blksfree (b * fs.frag + p) (n - old) old < n
  · rw [if_pos hshort]
    exact h.left
  rw [if_neg hshort]
  rcases freeEnd_spec (v.groups c).cg.blksfree (b * fs.frag + p) (fs.frag - p - n) n with
    ⟨hge, hle₂, hset₂, hend⟩
  generalize freeEnd (v.groups c).cg.blksfree (b * fs.frag + p) (fs.frag - p - n) n = i
    at hge hle₂ hset₂ hend ⊢
  have hmax : MaxRun (mapBit (v.groups c).cg.blksfree) fs.frag (b * fs.frag) (p + old)
      (i - old) := by
    refine ⟨by omega, fun j hj => ?_, Or.inr ?_, ?_⟩
    · rw [← Nat.add_assoc, Nat.add_assoc]
      by_cases hnew : old + j < n
      · exact hset₁ _ (by omega) (by omega)
      · exact hset₂ _ (by omega) (by omega)
    · have := hused (old - 1) (by omega)
      rwa [← Nat.add_sub_assoc hold, Nat.add_assoc (b * fs.frag)] at this
    by_cases hlast : p + old + (i - old) = fs.frag
    · exact Or.inl hlast
    have := hend (by omega)
    rw [show b * fs.frag + (p + old) + (i - old) = b * fs.frag + p + i by omega]
    exact Or.inr this
  rcases h.takeRun hl hc hg ⟨rfl, rfl, rfl⟩ hmax (by omega) (Nat.sub_pos_of_lt hmore) (by omega)
    (fun k => (bumpSum_take (v.groups c).cg.frsum (i - old) (i - n) k (i ≠ n)).trans
      (by
        congr 1
        exact if_congr (by omega) rfl rfl)) hlt with ⟨hv', htakes⟩
  rw [← Nat.add_assoc] at hv' htakes
  exact ⟨hv', htakes.less⟩

/-- A cluster that has been found is no longer than the counts reach, and its blocks
    are free in the map of the clusters. -/
theorem clusteralloc_found {s : Cluster} {readable : Bool} {b len : Nat} {got : Int}
    (hlen : 0 < len) (hrun : clusteralloc s readable b len = .found got) :
    (len : Int) ≤ s.contigsumsize ∧ ∃ q, q + len ≤ s.nclusterblks ∧
      got = ((q + len : Nat) : Int) - 1 ∧
      ∀ i, q ≤ i → i < q + len → isset s.clustersfree i = true := by
  -- Past the end of the counts, or of the blocks, nothing is found.
  have hnot : ¬ ((len : Int) > s.contigsumsize ∨ s.nclusterblks < b) := by
    intro hor
    unfold clusteralloc at hrun
    split at hrun
    · cases hrun
    split at hrun
    · cases hrun
    dsimp only at hrun
    split at hrun
    · cases hrun
    rename_i hcount
    rcases hor with hlong | hbehind
    · have hzero : (s.contigsumsize + 1 - (len : Int)).toNat = 0 := by omega
      rw [hzero, sumLoop] at hcount
      exact hcount hlong
    have hzero : ((s.nclusterblks : Int) - b).toNat = 0 := by omega
    rw [hzero, clusterSearch] at hrun
    cases hrun
  refine ⟨by omega, ?_⟩
  rcases (clusteralloc_result s readable b len hlen (by omega)).2 got hrun with
    ⟨q, -, hq, hgot, hset, -⟩
  exact ⟨q, hq, hgot, hset⟩

theorem LayoutOk.numfrags_bsize (hl : LayoutOk fs) : fs.numfrags fs.bsize = fs.frag :=
  Nat.mul_div_cancel _ hl.fsize

section

variable {scanc : Nat → (Nat → BitVec 8) → (BitVec 8 → BitVec 8) → BitVec 8 → Nat}
  (hscan : Scans scanc) (hl : LayoutOk fs)

include hscan hl

/-- The blocks of a cluster that are still to be taken are free. The first of them is
    the preferred one, unless it is block 0. -/
theorem takeCluster_ok (hc : c < fs.ncg) (first n : Nat) : ∀ (k : Nat) (v : Vol),
    VolOk fs v → (first + (k + n)) * fs.frag ≤ fs.fpg →
    (∀ i < n, WholeFree (v.bit c) fs.frag (first + (k + i))) →
    (∀ v', takeCluster scanc fs c (fs.cgbase c + first * fs.frag) n (k * fs.frag) v = some v' →
      Left fs v v') ∧
    (fs.cgbase c + first * fs.frag ≠ 0 → ∃ v',
      takeCluster scanc fs c (fs.cgbase c + first * fs.frag) n (k * fs.frag) v = some v') := by
  induction n with
  | zero =>
    intro k v h _ _
    refine ⟨fun v' hrun => ?_, fun _ => ⟨v, rfl⟩⟩
    rw [takeCluster, Option.some.injEq] at hrun
    rw [← hrun]
    exact h.left
  | succ n ih =>
    intro k v h hin hfree
    have hpos := hl.pos
    have hplace : fs.cgbase c + first * fs.frag + k * fs.frag =
        fs.fpg * c + (first + k) * fs.frag := by
      rw [Layout.cgbase]
      ring
    have hlt : (first + k) * fs.frag < fs.fpg := by
      have hadd : (first + (k + (n + 1))) * fs.frag =
          (first + k) * fs.frag + (n * fs.frag + fs.frag) := by ring
      omega
    have hblk : (first + k) * fs.frag / fs.frag = first + k := Nat.mul_div_cancel _ hpos
    have hsize : fs.numfrags fs.bsize = fs.frag := hl.numfrags_bsize
    have hwhole : WholeFree (v.bit c) fs.frag (first + k) := hfree 0 (Nat.succ_pos n)
    have hb := hl.block_lt hlt
    rw [hblk] at hb
    rcases alloccgblk_ok hscan hl h hc (fs.cgbase c + first * fs.frag + k * fs.frag)
      (lt_of_lt_of_eq hpos hsize.symm) (le_of_eq hsize)
      ((h.group c hc).counts.nbfree_pos hb hwhole) with ⟨b, v₁, hrun₁, hv₁, htakes, hpref⟩
    have hgot : fs.cgbase c + first * fs.frag + k * fs.frag ≠ 0 → b = first + k := by
      intro hne
      have := hpref hne
      rw [hplace, Nat.mul_add_div (by omega), Nat.div_eq_of_lt hlt, Nat.mul_add_mod,
        Nat.mod_eq_of_lt hlt, hblk] at this
      exact this rfl hwhole
    have hiff : fs.cgbase c + b * fs.frag = fs.cgbase c + first * fs.frag + k * fs.frag ↔
        b = first + k := by
      rw [hplace, Layout.cgbase, Nat.add_right_inj]
      exact ⟨fun heq => Nat.eq_of_mul_eq_mul_right hpos heq, fun heq => by rw [heq]⟩
    unfold takeCluster
    rw [hrun₁]
    simp only [ne_eq, hiff]
    by_cases hb' : b = first + k
    · -- The rest of the cluster is as it was.
      have hrest : ∀ i < n, WholeFree (v₁.bit c) fs.frag (first + (k + 1 + i)) := by
        intro i hi j hj
        rw [htakes.other c _ (Or.inr (by
          rw [(div_block hpos _ _).mpr ⟨j, hj, rfl⟩]
          omega))]
        have := hfree (i + 1) (by omega) j hj
        rwa [show k + (i + 1) = k + 1 + i by omega] at this
      have hstep := ih (k + 1) v₁ hv₁ (by
        rwa [show k + 1 + n = k + (n + 1) by omega]) hrest
      rw [Nat.succ_mul] at hstep
      rw [if_neg (fun hne => hne hb')]
      exact ⟨fun v' hrun => ⟨(hstep.1 v' hrun).1, fun d f hset =>
        htakes.less d f ((hstep.1 v' hrun).2 d f hset)⟩, hstep.2⟩
    · rw [if_pos hb']
      exact ⟨by simp, fun hne => absurd (hgot (by omega)) hb'⟩

/-- Where block 0 is in use, a cluster is taken whole. -/
theorem ffsClusteralloc_ok (h : VolOk fs v) (readable : Bool) (hc : c < fs.ncg) (bpref : Nat)
    {len : Nat} (hlen : 0 < len) :
    (∀ r v', ffsClusteralloc scanc fs v readable c bpref len = some (r, v') → Left fs v v') ∧
    (v.bit 0 0 = false → ∃ r v',
      ffsClusteralloc scanc fs v readable c bpref len = some (r, v')) := by
  have hpos := hl.pos
  have hg := h.group c hc
  have hstay : ∀ r : Nat, (∀ r' v', some (r, v) = some (r', v') → Left fs v v') ∧
      (v.bit 0 0 = false → ∃ r' v', some (r, v) = some (r', v')) := by
    intro r
    refine ⟨fun r' v' hrun => ?_, fun _ => ⟨r, v, rfl⟩⟩
    rw [Option.some.injEq, Prod.mk.injEq] at hrun
    rw [← hrun.2]
    exact h.left
  unfold ffsClusteralloc
  simp only
  generalize ((if bpref / fs.fpg ≠ c then fs.cgdata c else bpref / fs.frag * fs.frag) %
    fs.fpg / fs.frag) = pref
  cases hrun : clusteralloc (v.groups c).cluster readable pref len with
  | skipped | unreadable | notFound => exact hstay 0
  | noSummary m =>
    refine ⟨fun r v' hrun => ?_, fun _ => ⟨_, _, rfl⟩⟩
    rw [Option.some.injEq, Prod.mk.injEq] at hrun
    rw [← hrun.2]
    refine ⟨h.put hc ⟨hg.counts, hg.blks, hg.bits⟩ (Int.add_zero _).symm (Int.add_zero _).symm,
      fun d f hset => ?_⟩
    by_cases hd : d = c
    · rw [hd, put_bit_self] at hset
      rw [hd]
      exact hset
    · rwa [put_bit_of_ne hd] at hset
  | found got =>
    rcases clusteralloc_found hlen hrun with ⟨hsize, q, hq, rfl, hset⟩
    have hfirst : (((q + len : Nat) : Int) - 1 - len + 1).toNat = q := by omega
    simp only [hfirst]
    -- The map of the clusters is right, so the blocks are free.
    have hfree : ∀ i < len, WholeFree (v.bit c) fs.frag (q + i) := by
      intro i hi
      have := hset (q + i) (by omega) (by omega)
      rw [hg.bits (by omega) _ (by omega), decide_eq_true_eq] at this
      exact this
    have hin : (q + len) * fs.frag ≤ fs.fpg := by
      rw [hg.blks] at hq
      have := hg.counts.ndblk
      change (v.groups c).cg.ndblk ≤ fs.fpg at this
      exact ((Nat.le_div_iff_mul_le hpos).mp hq).trans this
    have hlt : q * fs.frag < fs.fpg := by
      have := Nat.mul_lt_mul_of_pos_right (show q < q + len by omega) hpos
      omega
    have hgroup : ¬ (fs.cgbase c + q * fs.frag) / fs.fpg ≠ c := by
      rw [not_not, Layout.cgbase, Nat.mul_add_div (by omega), Nat.div_eq_of_lt hlt, Nat.add_zero]
    rw [if_neg (not_not.mpr (fun i hi => (isblock_iff hl.frag _ _).mpr (hfree i hi))),
      if_neg hgroup]
    have hcluster := takeCluster_ok hscan hl hc q len 0 v h (by rwa [Nat.zero_add])
      (fun i hi => by rw [Nat.zero_add]; exact hfree i hi)
    rw [Nat.zero_mul] at hcluster
    refine ⟨fun r v' hmap => ?_, fun hboot => ?_⟩
    · rw [Option.map_eq_some_iff] at hmap
      rcases hmap with ⟨v₁, htake, heq⟩
      rw [Prod.mk.injEq] at heq
      rw [← heq.2]
      exact hcluster.1 v₁ htake
    have hne : fs.cgbase c + q * fs.frag ≠ 0 := by
      intro hzero
      have hq0 : q = 0 := by
        by_contra hq0
        have := Nat.mul_pos (Nat.pos_of_ne_zero hq0) hpos
        omega
      have hc0 : c = 0 := by
        by_contra hc0
        have := Nat.mul_pos (show 0 < fs.fpg by omega) (Nat.pos_of_ne_zero hc0)
        rw [Layout.cgbase] at hzero
        omega
      have := hfree 0 hlen 0 hpos
      rw [hq0, hc0, Nat.zero_add, Nat.zero_mul, hboot] at this
      exact Bool.false_ne_true this
    rcases hcluster.2 hne with ⟨v', htake⟩
    exact ⟨_, v', by rw [htake]; rfl⟩

end

/-- A block or some fragments of one, in use, are given back. -/
theorem blkfreeCg_ok (hl : LayoutOk fs) (h : VolOk fs v) (readable : Bool) {bno : Nat}
    (hc : bno / fs.fpg < fs.ncg) (hsize : 0 < fs.numfrags size)
    (hrow : bno % fs.frag + fs.numfrags size ≤ fs.frag)
    (hin : bno % fs.fpg + fs.numfrags size ≤ (v.groups (bno / fs.fpg)).cg.ndblk)
    (hused : ∀ j < fs.numfrags size, v.bit (bno / fs.fpg) (bno % fs.fpg + j) = false) :
    ∃ v', blkfreeCg fs v readable bno size = some v' ∧ VolOk fs v' ∧
      (bno ≠ 0 → v.bit 0 0 = false → v'.bit 0 0 = false) := by
  have hpos := hl.pos
  have hg := h.group _ hc
  have hfpg : 0 < fs.fpg := Nat.zero_lt_of_lt hg.counts.rotor
  have hgives : ∀ v', Gives v v' (bno / fs.fpg) (bno % fs.fpg) (fs.numfrags size) →
      bno ≠ 0 → v.bit 0 0 = false → v'.bit 0 0 = false := by
    intro v' hgives hne hboot
    rw [hgives, hboot, Bool.or_false, decide_eq_false_iff_not]
    intro hall
    have hdiv := Nat.div_add_mod bno fs.fpg
    rw [← hall.1, Nat.mul_zero, Nat.zero_add] at hdiv
    omega
  unfold blkfreeCg
  simp only
  by_cases hbad : bno % 2 ^ 32 ≥ fs.size
  · rw [if_pos hbad]
    exact ⟨v, rfl, h, fun _ hboot => hboot⟩
  rw [if_neg hbad]
  by_cases hfail : readable = false
  · rw [if_pos hfail]
    exact ⟨v, rfl, h, fun _ hboot => hboot⟩
  rw [if_neg hfail]
  have hb := hl.block_lt (Nat.mod_lt bno hfpg)
  have hdiv := Nat.div_add_mod (bno % fs.fpg) fs.frag
  rw [Nat.mod_mod_of_dvd _ hl.fpg, Nat.mul_comm] at hdiv
  by_cases hwhole : size = fs.bsize
  · rw [if_pos hwhole]
    rw [hwhole, hl.numfrags_bsize] at hrow hin hused hgives
    have hzero : bno % fs.frag = 0 := by omega
    rw [hzero, Nat.add_zero] at hdiv
    rw [← hdiv] at hin hused hgives
    have hclear : AllClear (mapBit (v.groups (bno / fs.fpg)).cg.blksfree) fs.frag
        (bno % fs.fpg / fs.frag) := hused
    have hfree := (isfreeblock_iff hl.frag _ _).mpr hclear
    rw [if_neg (by rw [hfree]; exact Bool.noConfusion)]
    rcases h.giveBlock hl hc hg ⟨rfl, rfl, rfl⟩ hb hclear hin with ⟨hv', hv''⟩
    exact ⟨_, rfl, hv', hgives _ hv''⟩
  rw [if_neg hwhole, freeFrags_eq _ _ _ hused]
  have hbase : bno % fs.fpg - bno % fs.fpg % fs.frag = bno % fs.fpg / fs.frag * fs.frag := by
    rw [Nat.mod_mod_of_dvd _ hl.fpg]
    omega
  simp only [hbase, Nat.mul_div_cancel _ hpos]
  rw [← hdiv] at hin hused hgives
  rcases h.giveFrags hl hc hg ⟨rfl, rfl, rfl⟩ hb hsize hrow hused hin rfl rfl rfl with ⟨hv', hv''⟩
  rw [hdiv] at hv' hv'' hgives
  rw [← apply_ite some]
  exact ⟨_, rfl, hv', hgives _ hv''⟩

/-! ## Runs -/

/-- What the callers see to. A group has a free block when one is to be taken from it
    without a further look; sizes are at least a fragment and at most a block; the
    fragments that are extended or given back are in use and in one block. -/
def ValidAlloc (fs : Layout) (v : Vol) : AllocOp → Prop
  | .alloccg _ cgx _ size rsize =>
    cgx < fs.ncg ∧ (fs.fsize ≤ size ∧ size ≤ fs.bsize) ∧ fs.fsize ≤ rsize ∧ rsize ≤ fs.bsize
  | .alloccgblk cgx _ size =>
    cgx < fs.ncg ∧ 0 < (v.groups cgx).cg.nbfree ∧ fs.fsize ≤ size ∧ size ≤ fs.bsize
  | .fragextend _ cgx bprev osize nsize =>
    cgx < fs.ncg ∧ fs.fsize ≤ osize ∧ fs.numfrags osize < fs.numfrags nsize ∧ nsize ≤ fs.bsize ∧
      bprev % fs.frag + fs.numfrags osize ≤ fs.frag ∧
      ∀ j < fs.numfrags osize, v.bit cgx (bprev % fs.fpg + j) = false
  | .clusteralloc _ cgx _ len => cgx < fs.ncg ∧ 0 < len
  | .blkfree _ bno size =>
    bno / fs.fpg < fs.ncg ∧ fs.fsize ≤ size ∧ bno % fs.frag + fs.numfrags size ≤ fs.frag ∧
      bno % fs.fpg + fs.numfrags size ≤ (v.groups (bno / fs.fpg)).cg.ndblk ∧
      ∀ j < fs.numfrags size, v.bit (bno / fs.fpg) (bno % fs.fpg + j) = false

/-- Block 0, which stands for no block, is not given back. -/
def AllocOp.SparesZero : AllocOp → Prop
  | .blkfree _ bno _ => bno ≠ 0
  | _ => True

theorem LayoutOk.numfrags_pos (hl : LayoutOk fs) (h : fs.fsize ≤ size) :
    0 < fs.numfrags size :=
  Nat.div_pos h hl.fsize

theorem numfrags_le (h : size ≤ fs.bsize) : fs.numfrags size ≤ fs.frag :=
  Nat.div_le_of_le_mul (by rwa [Layout.bsize, Nat.mul_comm] at h)

section

variable {scanc : Nat → (Nat → BitVec 8) → (BitVec 8 → BitVec 8) → BitVec 8 → Nat}

/-- One call keeps the counts. Where block 0 is in use and stays so, the call ends. -/
theorem execAlloc_ok (hscan : Scans scanc) (hl : LayoutOk fs) (h : VolOk fs v) {op : AllocOp}
    (hop : ValidAlloc fs v op) :
    (∀ v', execAlloc scanc fs v op = some v' → VolOk fs v') ∧
    (v.bit 0 0 = false → op.SparesZero →
      ∃ v', execAlloc scanc fs v op = some v' ∧ v'.bit 0 0 = false) := by
  -- What is left by a call that ends and makes nothing free.
  have hleft : ∀ v₁ (r : Option Vol), r = some v₁ → Left fs v v₁ →
      (∀ v', r = some v' → VolOk fs v') ∧
      (v.bit 0 0 = false → op.SparesZero → ∃ v', r = some v' ∧ v'.bit 0 0 = false) := by
    intro v₁ r hr hleft
    refine ⟨fun v' hrun => ?_, fun hboot _ => ⟨v₁, hr, ?_⟩⟩
    · rw [hr, Option.some.injEq] at hrun
      rw [← hrun]
      exact hleft.1
    · rw [← Bool.not_eq_true] at hboot ⊢
      exact fun hset => hboot (hleft.2 0 0 hset)
  cases op with
  | alloccg readable cgx bpref size rsize =>
    rcases hop with ⟨hc, ⟨hsize, hle⟩, hrsize, hrle⟩
    rcases alloccg_ok hscan hl h readable hc bpref (hl.numfrags_pos hsize) (numfrags_le hle)
      (hl.numfrags_pos hrsize) (numfrags_le hrle) with ⟨r, v', hrun, hv'⟩
    exact hleft v' _ (by rw [execAlloc, hrun]; rfl) hv'
  | alloccgblk cgx bpref size =>
    rcases hop with ⟨hc, hnb, hsize, hle⟩
    rcases alloccgblk_ok hscan hl h hc bpref (hl.numfrags_pos hsize) (numfrags_le hle) hnb with
      ⟨b, v', hrun, hv', htakes, -⟩
    exact hleft v' _ (by rw [execAlloc, hrun]; rfl) ⟨hv', htakes.less⟩
  | fragextend readable cgx bprev osize nsize =>
    rcases hop with ⟨hc, hold, hmore, hle, hin, hused⟩
    exact hleft _ _ rfl (fragextend_ok hl h readable hc (hl.numfrags_pos hold) hmore
      (numfrags_le hle) hin hused)
  | clusteralloc readable cgx bpref len =>
    rcases hop with ⟨hc, hlen⟩
    rcases ffsClusteralloc_ok hscan hl h readable hc bpref hlen with ⟨hkeep, hends⟩
    refine ⟨fun v' hrun => ?_, fun hboot hspare => ?_⟩
    · rw [execAlloc, Option.map_eq_some_iff] at hrun
      rcases hrun with ⟨⟨r, v₁⟩, hrun, rfl⟩
      exact (hkeep r v₁ hrun).1
    · rcases hends hboot with ⟨r, v', hrun⟩
      exact (hleft v' _ (by rw [execAlloc, hrun]; rfl) (hkeep r v' hrun)).2 hboot hspare
  | blkfree readable bno size =>
    rcases hop with ⟨hc, hsize, hrow, hin, hused⟩
    rcases blkfreeCg_ok hl h readable hc (hl.numfrags_pos hsize) hrow hin hused with
      ⟨v₁, hrun₁, hv₁, hzero⟩
    refine ⟨fun v' hrun => ?_, fun hboot hspare => ⟨v₁, hrun₁, hzero hspare hboot⟩⟩
    rw [execAlloc, hrun₁, Option.some.injEq] at hrun
    rw [← hrun]
    exact hv₁

/-- Whatever is allocated and freed, the counts of every group stay those of its map,
    the map of the clusters has its free blocks, and the summaries in memory follow.
    Where block 0 is in use and stays so, no call ends in a panic. -/
theorem counts_kept (hscan : Scans scanc) (hl : LayoutOk fs) (v : Vol) (ops : List AllocOp)
    (h : VolOk fs v) (hops : EveryStep (execAlloc scanc fs) (ValidAlloc fs) v ops) :
    (∀ v', runOps (execAlloc scanc fs) v ops = some v' → VolOk fs v') ∧
    (v.bit 0 0 = false → (∀ op ∈ ops, op.SparesZero) →
      ∃ v', runOps (execAlloc scanc fs) v ops = some v') := by
  refine ⟨fun v' hrun => ?_, fun hboot hspare => ?_⟩
  · exact runOps_invariant_of _ _ (VolOk fs) (fun s op s' hs hop hrun =>
      (execAlloc_ok hscan hl hs hop).1 s' hrun) ops v v' h hops hrun
  induction ops generalizing v with
  | nil => exact ⟨v, rfl⟩
  | cons op ops ih =>
    rcases execAlloc_ok hscan hl h hops.1 with ⟨hkeep, hends⟩
    rcases hends hboot (hspare op List.mem_cons_self) with ⟨v₁, hrun, hboot₁⟩
    rw [runOps_cons, hrun]
    exact ih v₁ (hkeep v₁ hrun) (hops.2 v₁ hrun) hboot₁
      (fun op hop => hspare op (List.mem_cons_of_mem _ hop))

end

instance (fs : Layout) (v : Vol) : ∀ op, Decidable (ValidAlloc fs v op)
  | .alloccg .. => inferInstanceAs (Decidable (_ ∧ _))
  | .alloccgblk .. => inferInstanceAs (Decidable (_ ∧ _))
  | .fragextend .. => inferInstanceAs (Decidable (_ ∧ _))
  | .clusteralloc .. => inferInstanceAs (Decidable (_ ∧ _))
  | .blkfree .. => inferInstanceAs (Decidable (_ ∧ _))

/-- A file system of one group. -/
def pieceFs : Layout where
  frag := 4
  fpg := 16
  ufs2 := true
  ncg := 1
  fsize := 1024
  size := 16
  oldCgoffset := 0
  oldCgmask := 0xffffffff
  dblkno := 0
  metaspace := 0

def pieceVol : Vol where
  groups := fun _ => {
    cg := pieceGroup,
    cluster := {
      contigsumsize := 2, nclusterblks := 4, clustersfree := fun i => if i = 0 then 0x08 else 0,
      clustersum := fun k => if k = 1 then 1 else 0, maxcluster := 1 },
    rotor := 0 }
  cs := fun _ => ⟨1, 3⟩
  cstotal := ⟨1, 3⟩

/-- Two fragments are taken and given back, a file of one fragment gets the one behind
    it, and a cluster of one block is taken and given back in pieces. -/
theorem counts_kept_pieces : ∃ v', runOps
    (execAlloc (fun size cp table mask => scancLoop table mask cp size 0) pieceFs) pieceVol
    [.alloccg true 0 5 2048 2048, .blkfree true 1 2048, .fragextend true 0 6 1024 2048,
      .clusteralloc true 0 12 1, .blkfree true 13 3072, .blkfree true 12 1024] = some v' ∧
    VolOk pieceFs v' := by
  have hl : LayoutOk pieceFs := ⟨by decide, by decide, by decide⟩
  have h : VolOk pieceFs pieceVol := by
    have hbits : ∀ b < 4, isset (pieceVol.groups 0).cluster.clustersfree b =
        decide (WholeFree pieceGroup.isFree 4 b) := by decide
    have hblks : 4 = 16 / 4 := by decide
    exact ⟨fun c _ => ⟨pieceGroup_accounted, hblks, fun _ => hbits⟩, fun _ _ => rfl, fun _ _ => rfl,
      by decide, by decide⟩
  rcases counts_kept scancLoop_scans hl pieceVol [.alloccg true 0 5 2048 2048,
    .blkfree true 1 2048, .fragextend true 0 6 1024 2048, .clusteralloc true 0 12 1,
    .blkfree true 13 3072, .blkfree true 12 1024] h (by decide) with ⟨hkeep, hends⟩
  rcases hends (by decide) (by simp [AllocOp.SparesZero]) with ⟨v', hrun⟩
  exact ⟨v', hrun, hkeep v' hrun⟩

end FreeBSDKern.Ffs
