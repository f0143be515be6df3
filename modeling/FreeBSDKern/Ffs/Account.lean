import FreeBSDKern.Ffs.Alloccg

/-!
# The Counts of the Cylinder Groups

The allocator keeps five summaries of one map by hand. Here they are put into one
invariant: the counts of every group are those of its map, the map of its
clusters has a bit for every block that is entirely free, the summary that is
kept in memory has the counts of the group, and the total is the sum over the
groups.

Every change is of one of four kinds. A block that is entirely free is taken, as a
whole or but for its last fragments; a run of a broken block loses its first
fragments; a block is given back; and fragments are given back, which may make
their block whole. Each kind is worked out once.

## Main definitions

* `LayoutOk`, `GroupOk`, `VolOk`: The invariant.
* `Takes`, `Gives`: What a change does to the map.

## Theorems

* `GroupOk.flip`: The map of the clusters follows a block.
* `VolOk.put`: A group is written back.
* `VolOk.takeBlock`, `VolOk.takeRun`, `VolOk.giveBlock`, `VolOk.giveFrags`: The
  four kinds of change.
-/

namespace FreeBSDKern.Ffs

open Function

/-- A block has 1, 2, 4 or 8 fragments, and a group has whole blocks. -/
structure LayoutOk (fs : Layout) : Prop where
  frag : fs.frag ∈ [1, 2, 4, 8]
  fpg : fs.frag ∣ fs.fpg
  fsize : 0 < fs.fsize

/-- The counts of a group and the map of its clusters are right. -/
structure GroupOk (fs : Layout) (g : Group) : Prop where
  counts : Accounted fs.toFs g.cg
  blks : g.cluster.nclusterblks = g.cg.ndblk / fs.frag
  bits : 0 < g.cluster.contigsumsize → ∀ b < g.cluster.nclusterblks,
    isset g.cluster.clustersfree b = decide (WholeFree g.cg.isFree fs.frag b)

/-- Every group is right, and the summaries in memory are those of the groups. -/
structure VolOk (fs : Layout) (v : Vol) : Prop where
  group : ∀ c < fs.ncg, GroupOk fs (v.groups c)
  nbfree : ∀ c < fs.ncg, (v.cs c).nbfree = (v.groups c).cg.nbfree
  nffree : ∀ c < fs.ncg, (v.cs c).nffree = (v.groups c).cg.nffree
  total_nbfree : v.cstotal.nbfree = ∑ c ∈ Finset.range fs.ncg, (v.cs c).nbfree
  total_nffree : v.cstotal.nffree = ∑ c ∈ Finset.range fs.ncg, (v.cs c).nffree

/-! ## Maps and counts -/

theorem mapBit_setBits (n : Nat) : ∀ (map : Nat → BitVec 8) (bno f : Nat),
    mapBit (setBits map bno n) f = (decide (bno ≤ f ∧ f < bno + n) || mapBit map f) := by
  induction n with
  | zero =>
    intro map bno f
    rw [setBits, decide_eq_false (by omega), Bool.false_or]
  | succ n ih =>
    intro map bno f
    rw [setBits, ih, mapBit_setMapBit, ← Bool.or_assoc, ← Bool.decide_or]
    congr 2
    exact propext (by omega)

theorem mapBit_clrBits (n : Nat) : ∀ (map : Nat → BitVec 8) (bno f : Nat),
    mapBit (clrBits map bno n) f = (mapBit map f && !decide (bno ≤ f ∧ f < bno + n)) := by
  induction n with
  | zero =>
    intro map bno f
    rw [clrBits, decide_eq_false (by omega), Bool.not_false, Bool.and_true]
  | succ n ih =>
    intro map bno f
    rw [clrBits, ih, mapBit_clrMapBit, Bool.and_comm (!decide (f = bno)), Bool.and_assoc,
      ← Bool.not_or, ← Bool.decide_or]
    congr 3
    exact propext (by omega)

theorem freeFrags_eq (n : Nat) : ∀ (map : Nat → BitVec 8) (bno : Nat),
    (∀ j < n, mapBit map (bno + j) = false) → freeFrags map bno n = some (setBits map bno n) := by
  induction n with
  | zero => exact fun map bno _ => rfl
  | succ n ih =>
    intro map bno h
    have hfirst := h 0 (Nat.succ_pos n)
    rw [Nat.add_zero] at hfirst
    rw [freeFrags, setBits, if_neg (by rw [hfirst]; exact Bool.false_ne_true)]
    refine ih _ _ (fun j hj => ?_)
    rw [mapBit_setMapBit, decide_eq_false (by omega), Bool.false_or, Nat.add_assoc,
      Nat.add_comm 1 j]
    exact h (j + 1) (by omega)

/-- The free fragments end at the first one in use. -/
theorem freeEnd_spec (map : Nat → BitVec 8) (bno n : Nat) : ∀ i,
    i ≤ freeEnd map bno n i ∧ freeEnd map bno n i ≤ i + n ∧
      (∀ j, i ≤ j → j < freeEnd map bno n i → mapBit map (bno + j) = true) ∧
      (freeEnd map bno n i < i + n → mapBit map (bno + freeEnd map bno n i) = false) := by
  induction n with
  | zero =>
    intro i
    rw [freeEnd]
    exact ⟨Nat.le_refl i, Nat.le_refl i, fun j hj hlt => by omega, fun hlt => by omega⟩
  | succ n ih =>
    intro i
    rw [freeEnd]
    by_cases hclear : mapBit map (bno + i) = false
    · rw [if_pos hclear]
      exact ⟨Nat.le_refl i, by omega, fun j hj hlt => by omega, fun _ => hclear⟩
    rw [if_neg hclear]
    rcases ih (i + 1) with ⟨hge, hle, hset, hend⟩
    refine ⟨by omega, by omega, fun j hj hlt => ?_, fun hlt => hend (by omega)⟩
    by_cases hj' : j = i
    · rw [hj', ← Bool.not_eq_false]
      exact hclear
    · exact hset j (by omega) hlt

theorem bumpSum_apply (frsum : Nat → Int) (i k : Nat) (cnt : Int) :
    bumpSum frsum i cnt k = frsum k + if k = i then cnt else 0 := by
  unfold bumpSum
  by_cases hk : k = i
  · rw [hk, update_self, if_pos rfl]
  · rw [update_of_ne hk, if_neg hk, Int.add_zero]

/-- A run becomes shorter: its length is counted once less, and what is left of it,
    if anything, once more. -/
theorem bumpSum_take (frsum : Nat → Int) (a r k : Nat) (p : Prop) [Decidable p] :
    (if p then bumpSum (bumpSum frsum a (-1)) r 1 else bumpSum frsum a (-1)) k =
      frsum k - (if k = a then 1 else 0) + (if p ∧ k = r then 1 else 0) := by
  by_cases hp : p
  · rw [if_pos hp, bumpSum_apply, bumpSum_apply]
    simp only [hp, true_and]
    split_ifs <;> omega
  rw [if_neg hp, bumpSum_apply]
  simp only [hp, false_and, if_false]
  split_ifs <;> omega

theorem LayoutOk.pos {fs : Layout} (hl : LayoutOk fs) : 0 < fs.frag := by
  have hall : ∀ frag ∈ [1, 2, 4, 8], 0 < frag := by decide
  exact hall _ hl.frag

variable {b c n : Nat} {g : Group} {nbfree nffree : Int}

/-- The fragments of a block of the map are in its bytes. -/
theorem mapBlks_in {fs : Fs} {j : Nat} (hb : b < fs.mapBlks) (hj : j < fs.frag) :
    b * fs.frag + j < (fs.fpg + 7) / 8 * 8 := by
  have hle := Nat.mul_le_mul_right fs.frag (Nat.succ_le_of_lt hb)
  have hdiv : fs.mapBlks * fs.frag ≤ (fs.fpg + 7) / 8 * 8 := Nat.div_mul_le_self _ _
  rw [Nat.succ_mul] at hle
  omega

/-- A place inside the group is in a block of the map. -/
theorem LayoutOk.block_lt {fs : Layout} (hl : LayoutOk fs) {f : Nat} (hf : f < fs.fpg) :
    f / fs.frag < fs.toFs.mapBlks := by
  refine (Nat.div_lt_iff_lt_mul hl.pos).mpr ?_
  have hbytes : ∀ frag ∈ [1, 2, 4, 8], 8 / frag * frag = 8 := by decide
  rw [Fs.mapBlks, Nat.mul_div_assoc _ (Dvd.intro_left _ (hbytes _ hl.frag)), Nat.mul_assoc,
    hbytes _ hl.frag]
  omega

theorem Accounted.whole_in {fs : Fs} {cg : Cg} (h : Accounted fs cg) (hpos : 0 < fs.frag)
    (hb : b < fs.mapBlks) (hwhole : WholeFree cg.isFree fs.frag b) :
    b * fs.frag + fs.frag ≤ cg.ndblk := by
  have := h.inMap _ (mapBlks_in hb (Nat.sub_lt hpos Nat.one_pos))
    (hwhole _ (Nat.sub_lt hpos Nat.one_pos))
  omega

/-! ## The map of the clusters -/

section

variable {fs : Layout} {g : Group} {cg : Cg}

/-- As long as the same blocks are entirely free, it stays. -/
theorem GroupOk.same (h : GroupOk fs g) (hacc : Accounted fs.toFs cg) (hnd : cg.ndblk = g.cg.ndblk)
    (hw : ∀ b, WholeFree cg.isFree fs.frag b ↔ WholeFree g.cg.isFree fs.frag b) (rotor : Nat) :
    GroupOk fs { cg := cg, cluster := g.cluster, rotor := rotor } where
  counts := hacc
  blks := by rw [hnd]; exact h.blks
  bits := by
    intro hsum b hb
    rw [h.bits hsum b hb]
    exact decide_eq_decide.mpr (hw b).symm

/-- One block that is entirely free is so no longer, or the other way round. -/
theorem GroupOk.flip (h : GroupOk fs g) (hacc : Accounted fs.toFs cg) (hnd : cg.ndblk = g.cg.ndblk)
    {cnt : Int}
    (hw : ∀ c, c ≠ b → (WholeFree cg.isFree fs.frag c ↔ WholeFree g.cg.isFree fs.frag c))
    (hb : WholeFree cg.isFree fs.frag b ↔ cnt > 0) (rotor : Nat) :
    GroupOk fs { cg := cg, cluster := clusteracct g.cluster b cnt, rotor := rotor } := by
  have hkeep : (clusteracct g.cluster b cnt).contigsumsize = g.cluster.contigsumsize ∧
      (clusteracct g.cluster b cnt).nclusterblks = g.cluster.nclusterblks := by
    unfold clusteracct
    by_cases hsize : g.cluster.contigsumsize ≤ 0
    · rw [if_pos hsize]
      exact ⟨rfl, rfl⟩
    · rw [if_neg hsize]
      exact ⟨rfl, rfl⟩
  refine ⟨hacc, ?_, fun hsum c hc => ?_⟩
  · rw [hnd]
    exact hkeep.2.trans h.blks
  change 0 < (clusteracct g.cluster b cnt).contigsumsize at hsum
  change c < (clusteracct g.cluster b cnt).nclusterblks at hc
  change isset (clusteracct g.cluster b cnt).clustersfree c = _
  rw [hkeep.1] at hsum
  rw [hkeep.2] at hc
  rw [isset_clusteracct hsum]
  by_cases hcb : c = b
  · rw [hcb, update_self]
    exact decide_eq_decide.mpr hb.symm
  · rw [update_of_ne hcb, h.bits hsum c hc]
    exact decide_eq_decide.mpr (hw c hcb).symm

end

/-- A block whose fragments have the same bits is entirely free when it was. -/
theorem wholeFree_congr {free free' : Nat → Bool} {frag : Nat} (hpos : 0 < frag) (hne : c ≠ b)
    (h : ∀ f, f / frag ≠ b → free' f = free f) :
    WholeFree free' frag c ↔ WholeFree free frag c := by
  refine forall_congr' (fun j => forall_congr' (fun hj => ?_))
  have hdiv := (div_block hpos c _).mpr ⟨j, hj, rfl⟩
  rw [h _ (by rw [hdiv]; exact hne)]

theorem wholeOf_eq_iff {free free' : Nat → Bool} {frag : Nat} :
    wholeOf free' frag b = wholeOf free frag b ↔
      (WholeFree free' frag b ↔ WholeFree free frag b) := by
  unfold wholeOf
  by_cases h' : WholeFree free' frag b
  · by_cases h : WholeFree free frag b
    · simp only [h, h']
    · simp only [h, h', if_true, if_false, one_ne_zero, iff_false, not_true]
  by_cases h : WholeFree free frag b
  · simp only [h, h', if_true, if_false, zero_ne_one, iff_true]
  · simp only [h, h']

/-! ## Writing a group back -/

variable {fs : Layout} {v : Vol}

/-- The group has been put, and the summaries have followed its counts. -/
theorem VolOk.put (h : VolOk fs v) (hc : c < fs.ncg) (hg : GroupOk fs g)
    (hnb : g.cg.nbfree = (v.groups c).cg.nbfree + nbfree)
    (hnf : g.cg.nffree = (v.groups c).cg.nffree + nffree) : VolOk fs (v.put c g nbfree nffree) := by
  have hself : (v.put c g nbfree nffree).groups c = g := update_self ..
  have hcs : (v.put c g nbfree nffree).cs c = (v.cs c).add nbfree nffree := update_self ..
  have hother : ∀ d, d ≠ c → (v.put c g nbfree nffree).groups d = v.groups d ∧
      (v.put c g nbfree nffree).cs d = v.cs d := fun d hd =>
    ⟨update_of_ne hd .., update_of_ne hd ..⟩
  refine ⟨fun d hd => ?_, fun d hd => ?_, fun d hd => ?_, ?_, ?_⟩
  · by_cases hdc : d = c
    · rw [hdc, hself]
      exact hg
    · rw [(hother d hdc).1]
      exact h.group d hd
  · by_cases hdc : d = c
    · rw [hdc, hself, hcs, hnb, ← h.nbfree c hc]
      rfl
    · rw [(hother d hdc).1, (hother d hdc).2]
      exact h.nbfree d hd
  · by_cases hdc : d = c
    · rw [hdc, hself, hcs, hnf, ← h.nffree c hc]
      rfl
    · rw [(hother d hdc).1, (hother d hdc).2]
      exact h.nffree d hd
  · rw [sum_change hc (fun d hd => by rw [(hother d hd).2]), hcs, ← h.total_nbfree]
    change v.cstotal.nbfree + nbfree = v.cstotal.nbfree + ((v.cs c).nbfree + nbfree - _)
    ring
  rw [sum_change hc (fun d hd => by rw [(hother d hd).2]), hcs, ← h.total_nffree]
  change v.cstotal.nffree + nffree = v.cstotal.nffree + ((v.cs c).nffree + nffree - _)
  ring

/-- The bit of a fragment of a group. -/
def Vol.bit (v : Vol) (c f : Nat) : Bool := mapBit (v.groups c).cg.blksfree f

/-- The map only changes in one block of one group, and nothing there becomes free. -/
structure Takes (fs : Layout) (v v' : Vol) (c b : Nat) : Prop where
  other : ∀ d f, d ≠ c ∨ f / fs.frag ≠ b → v'.bit d f = v.bit d f
  less : ∀ d f, v'.bit d f = true → v.bit d f = true

theorem put_bit_self (c : Nat) (g : Group) (nbfree nffree : Int) (f : Nat) :
    (v.put c g nbfree nffree).bit c f = mapBit g.cg.blksfree f := by
  have heq : (v.put c g nbfree nffree).groups c = g := update_self ..
  rw [Vol.bit, heq]

theorem put_bit_of_ne {d : Nat} (hd : d ≠ c) (g : Group) (nbfree nffree : Int) (f : Nat) :
    (v.put c g nbfree nffree).bit d f = v.bit d f := by
  have heq : (v.put c g nbfree nffree).groups d = v.groups d := update_of_ne hd ..
  rw [Vol.bit, heq, Vol.bit]

theorem put_takes (hother : ∀ f, f / fs.frag ≠ b → mapBit g.cg.blksfree f = v.bit c f)
    (hless : ∀ f, mapBit g.cg.blksfree f = true → v.bit c f = true) :
    Takes fs v (v.put c g nbfree nffree) c b := by
  refine ⟨fun d f hor => ?_, fun d f hset => ?_⟩
  · by_cases hd : d = c
    · rw [hd, put_bit_self, hother f (hor.resolve_left (fun hne => hne hd))]
    · exact put_bit_of_ne hd ..
  by_cases hd : d = c
  · rw [hd, put_bit_self] at hset
    rw [hd]
    exact hless f hset
  · rwa [put_bit_of_ne hd] at hset

/-- Some fragments of one group become free. -/
def Gives (v v' : Vol) (c first n : Nat) : Prop :=
  ∀ d f, v'.bit d f = (decide (d = c ∧ first ≤ f ∧ f < first + n) || v.bit d f)

theorem put_gives {first : Nat}
    (h : ∀ f, mapBit g.cg.blksfree f = (decide (first ≤ f ∧ f < first + n) || v.bit c f)) :
    Gives v (v.put c g nbfree nffree) c first n := by
  intro d f
  by_cases hd : d = c
  · rw [hd, put_bit_self, h f]
    simp only [true_and]
  · rw [put_bit_of_ne hd, decide_eq_false (fun hall => hd hall.1), Bool.false_or]

/-! ## The four kinds of change -/

/-- A group as it is on the disk, but for its rotors. -/
structure SameCounts (g g₀ : Group) : Prop where
  nbfree : g.cg.nbfree = g₀.cg.nbfree
  nffree : g.cg.nffree = g₀.cg.nffree
  map : g.cg.blksfree = g₀.cg.blksfree

section

variable (hl : LayoutOk fs) (h : VolOk fs v) {c : Nat} (hc : c < fs.ncg) {g : Group}
  (hg : GroupOk fs g) (hsame : SameCounts g (v.groups c)) {b : Nat}

include hl h hc hg hsame

/-- A block that is entirely free is taken, and its last fragments are freed. -/
theorem VolOk.takeBlock (hb : b < fs.toFs.mapBlks) (hwhole : WholeFree g.cg.isFree fs.frag b)
    {size : Nat} (hsize : 0 < fs.numfrags size) (hle : fs.numfrags size ≤ fs.frag) :
    ∃ v', Ffs.takeBlock fs v c g (b * fs.frag) size = (fs.cgbase c + b * fs.frag, v') ∧
      VolOk fs v' ∧ Takes fs v v' c b := by
  have hpos := hl.pos
  have hin := hg.counts.whole_in hpos hb hwhole
  have hnd := hg.counts.ndblk
  have hblk : b * fs.frag / fs.frag = b := Nat.mul_div_cancel b hpos
  have hplace : (fs.cgbase c + b * fs.frag) % fs.fpg = b * fs.frag := by
    rw [Layout.cgbase, Nat.mul_add_mod, Nat.mod_eq_of_lt (by omega)]
  have hall : WholeFree (mapBit g.cg.blksfree) fs.frag b := hwhole
  rcases wholeFree_counts hall with ⟨hw, hloose, hruns⟩
  unfold Ffs.takeBlock
  simp only [hblk, hplace]
  by_cases hfull : fs.numfrags size ≠ fs.frag
  · -- The first fragments are in use, and the others are one run.
    rw [if_pos hfull]
    generalize hmap : setBits (clrblock fs.frag g.cg.blksfree b) (b * fs.frag + fs.numfrags size)
      (fs.frag - fs.numfrags size) = bits
    have hbits : ∀ f, mapBit bits f =
        (decide (b * fs.frag + fs.numfrags size ≤ f ∧ f < b * fs.frag + fs.frag) ||
          (!decide (f / fs.frag = b) && mapBit g.cg.blksfree f)) := by
      intro f
      rw [← hmap, mapBit_setBits, mapBit_clrblock hl.frag, Nat.add_assoc, Nat.add_sub_cancel' hle]
    have hfirst : ∀ j < fs.frag,
        mapBit bits (b * fs.frag + j) = decide (fs.numfrags size ≤ j) := by
      intro j hj
      rw [hbits, (div_block hpos b _).mpr ⟨j, hj, rfl⟩, decide_eq_true rfl, Bool.not_true,
        Bool.false_and, Bool.or_false]
      exact decide_eq_decide.mpr (by omega)
    have hrest : ∀ f, f / fs.frag ≠ b → mapBit bits f = mapBit g.cg.blksfree f := by
      intro f hf
      have hout : ¬ (b * fs.frag + fs.numfrags size ≤ f ∧ f < b * fs.frag + fs.frag) :=
        fun hrow => hf ((div_block hpos b f).mpr ⟨f - b * fs.frag, by omega, by omega⟩)
      rw [hbits, decide_eq_false hout, decide_eq_false hf, Bool.false_or, Bool.not_false,
        Bool.true_and]
    rcases tail_counts hsize (by omega) hfirst with ⟨hw', hloose', hruns'⟩
    have hacc : Accounted fs.toFs { g.cg with
        blksfree := bits, nbfree := g.cg.nbfree - 1, nffree := g.cg.nffree + (fs.frag - fs.numfrags size : Nat),
        frsum := bumpSum g.cg.frsum (fs.frag - fs.numfrags size) 1 } :=
      hg.counts.change hpos hb hrest (fun j hj _ => by omega)
      (by rw [hw', hw]; ring)
      (by rw [hloose', hloose]; omega)
      (fun k hk hlt => by rw [bumpSum_apply, hruns' k hk, hruns k hk hlt]; ring)
    refine ⟨_, rfl, h.put hc (hg.flip hacc rfl (fun d hd => wholeFree_congr hpos hd hrest)
      ⟨fun hfree => ?_, fun hcnt => by omega⟩ _) ?_ ?_,
      put_takes (fun f hf => ?_) (fun f hset => ?_)⟩
    · have := hfree 0 hpos
      rw [Cg.isFree, ← mapBit, hfirst 0 hpos, decide_eq_true_eq] at this
      omega
    · rw [hsame.nbfree]
      rfl
    · rw [hsame.nffree]
    · rw [hrest f hf, hsame.map]
      rfl
    rw [Vol.bit, ← hsame.map]
    by_cases hf : f / fs.frag = b
    · rcases (div_block hpos b f).mp hf with ⟨j, hj, rfl⟩
      exact hwhole j hj
    · rwa [hrest f hf] at hset
  · rw [if_neg hfull]
    have hrest : ∀ f, f / fs.frag ≠ b → mapBit (clrblock fs.frag g.cg.blksfree b) f =
        mapBit g.cg.blksfree f := by
      intro f hf
      rw [mapBit_clrblock hl.frag, decide_eq_false hf, Bool.not_false, Bool.true_and]
    have hclear : AllClear (mapBit (clrblock fs.frag g.cg.blksfree b)) fs.frag b := by
      intro j hj
      rw [mapBit_clrblock hl.frag, (div_block hpos b _).mpr ⟨j, hj, rfl⟩, decide_eq_true rfl,
        Bool.not_true, Bool.false_and]
    rcases allClear_counts hpos hclear with ⟨hw', hloose', hruns'⟩
    have hacc : Accounted fs.toFs { g.cg with
        blksfree := clrblock fs.frag g.cg.blksfree b, nbfree := g.cg.nbfree - 1 } :=
      hg.counts.change hpos hb hrest (fun j hj _ => by omega)
      (by rw [hw', hw]; ring)
      (by rw [hloose', hloose]; ring)
      (fun k hk hlt => by rw [hruns' k hk, hruns k hk hlt]; ring)
    refine ⟨_, rfl, h.put hc (hg.flip hacc rfl (fun d hd => wholeFree_congr hpos hd hrest)
      ⟨fun hfree => ?_, fun hcnt => by omega⟩ _) ?_ ?_,
      put_takes (fun f hf => ?_) (fun f hset => ?_)⟩
    · have := hfree 0 hpos
      rw [Cg.isFree, ← mapBit, hclear 0 hpos] at this
      exact absurd this Bool.false_ne_true
    · rw [hsame.nbfree]
      rfl
    · rw [hsame.nffree, Int.add_zero]
    · rw [hrest f hf, hsame.map]
      rfl
    · rw [mapBit_clrblock hl.frag, Bool.and_eq_true, hsame.map] at hset
      exact hset.2

/-- A run of a broken block loses its first fragments. -/
theorem VolOk.takeRun {pos a : Nat} (hmax : MaxRun g.cg.isFree fs.frag (b * fs.frag) pos a)
    (hlt : a < fs.frag) (hn : 0 < n) (hle : n ≤ a) {frsum : Nat → Int}
    (hfr : ∀ k, frsum k = g.cg.frsum k - (if k = a then 1 else 0) +
      (if n ≠ a ∧ k = a - n then 1 else 0)) (hb : b < fs.toFs.mapBlks) :
    VolOk fs (v.put c { g with cg := { g.cg with
        blksfree := clrBits g.cg.blksfree (b * fs.frag + pos) n, nffree := g.cg.nffree - n,
        frsum := frsum } } 0 (-n)) ∧
      Takes fs v (v.put c { g with cg := { g.cg with
        blksfree := clrBits g.cg.blksfree (b * fs.frag + pos) n, nffree := g.cg.nffree - n,
        frsum := frsum } } 0 (-n)) c b := by
  have hpos := hl.pos
  have hin := hmax.1
  have hrest : ∀ f, f / fs.frag ≠ b → mapBit (clrBits g.cg.blksfree (b * fs.frag + pos) n) f =
      mapBit g.cg.blksfree f := by
    intro f hf
    have hout : ¬ (b * fs.frag + pos ≤ f ∧ f < b * fs.frag + pos + n) :=
      fun hrow => hf ((div_block hpos b f).mpr ⟨f - b * fs.frag, by omega, by omega⟩)
    rw [mapBit_clrBits, decide_eq_false hout, Bool.not_false, Bool.and_true]
  have hblock : ∀ j < fs.frag, mapBit (clrBits g.cg.blksfree (b * fs.frag + pos) n)
      (b * fs.frag + j) =
      (mapBit g.cg.blksfree (b * fs.frag + j) && !decide (pos ≤ j ∧ j < pos + n)) := by
    intro j _
    rw [mapBit_clrBits]
    congr 2
    exact decide_eq_decide.mpr (by omega)
  have hold : MaxRun (mapBit g.cg.blksfree) fs.frag (b * fs.frag) pos a := hmax
  rcases takeRun_counts hold hlt hn hle hblock with ⟨hw, hloose, hruns⟩
  have hacc : Accounted fs.toFs { g.cg with
      blksfree := clrBits g.cg.blksfree (b * fs.frag + pos) n, nffree := g.cg.nffree - n,
      frsum := frsum } :=
    hg.counts.change hpos hb hrest
      (fun j hj hset => by
        rw [hblock j hj, Bool.and_eq_true] at hset
        exact hg.counts.inMap _ (mapBlks_in hb hj) hset.1)
      (by rw [hw]; ring)
      (by rw [hloose]; ring)
      (fun k hk _ => by rw [hfr k, hruns k hk]; ring)
  refine ⟨h.put hc (hg.same hacc rfl (fun d => ?_) _) ?_ ?_,
    put_takes (fun f hf => ?_) (fun f hset => ?_)⟩
  · by_cases hd : d = b
    · rw [hd]
      exact wholeOf_eq_iff.mp hw
    · exact wholeFree_congr hpos hd hrest
  · rw [← hsame.nbfree, Int.add_zero]
  · rw [← hsame.nffree]
    rfl
  · rw [hrest f hf, hsame.map]
    rfl
  · rw [mapBit_clrBits, Bool.and_eq_true, hsame.map] at hset
    exact hset.1

/-- A block none of whose fragments is free is given back. -/
theorem VolOk.giveBlock (hb : b < fs.toFs.mapBlks)
    (hclear : AllClear (mapBit g.cg.blksfree) fs.frag b)
    (hin : b * fs.frag + fs.frag ≤ g.cg.ndblk) : VolOk fs (v.put c { g with
        cg := { g.cg with
          blksfree := setblock fs.frag g.cg.blksfree b, nbfree := g.cg.nbfree + 1 },
        cluster := clusteracct g.cluster b 1 } 1 0) ∧
      Gives v (v.put c { g with
        cg := { g.cg with
          blksfree := setblock fs.frag g.cg.blksfree b, nbfree := g.cg.nbfree + 1 },
        cluster := clusteracct g.cluster b 1 } 1 0) c (b * fs.frag) fs.frag := by
  have hpos := hl.pos
  have hrest : ∀ f, f / fs.frag ≠ b → mapBit (setblock fs.frag g.cg.blksfree b) f =
      mapBit g.cg.blksfree f := by
    intro f hf
    rw [mapBit_setblock hl.frag, decide_eq_false hf, Bool.false_or]
  have hwhole : WholeFree (mapBit (setblock fs.frag g.cg.blksfree b)) fs.frag b := by
    intro j hj
    rw [mapBit_setblock hl.frag, (div_block hpos b _).mpr ⟨j, hj, rfl⟩, decide_eq_true rfl,
      Bool.true_or]
  rcases allClear_counts hpos hclear with ⟨hw, hloose, hruns⟩
  rcases wholeFree_counts hwhole with ⟨hw', hloose', hruns'⟩
  have hacc : Accounted fs.toFs { g.cg with
      blksfree := setblock fs.frag g.cg.blksfree b, nbfree := g.cg.nbfree + 1 } :=
    hg.counts.change hpos hb hrest (fun j hj _ => by omega)
      (by rw [hw', hw]; ring)
      (by rw [hloose', hloose]; ring)
      (fun k hk hlt => by rw [hruns' k hk hlt, hruns k hk]; ring)
  refine ⟨h.put hc (hg.flip hacc rfl (fun d hd => wholeFree_congr hpos hd hrest)
    (iff_of_true hwhole Int.one_pos) _) ?_ ?_, put_gives (fun f => ?_)⟩
  · rw [← hsame.nbfree]
  · rw [← hsame.nffree, Int.add_zero]
  rw [mapBit_setblock hl.frag, hsame.map, Vol.bit]
  congr 1
  refine decide_eq_decide.mpr ((div_block hpos b f).trans ⟨fun hj => ?_, fun hrow => ?_⟩)
  · rcases hj with ⟨j, hj, rfl⟩
    omega
  · exact ⟨f - b * fs.frag, by omega, by omega⟩

/-- Fragments of a block are given back, and if that makes it whole, it is counted
    as a block. -/
theorem VolOk.giveFrags {pos : Nat} (hb : b < fs.toFs.mapBlks) (hn : 0 < n)
    (hrow : pos + n ≤ fs.frag)
    (hclear : ∀ j < n, mapBit g.cg.blksfree (b * fs.frag + pos + j) = false)
    (hin : b * fs.frag + pos + n ≤ g.cg.ndblk) {map : Nat → BitVec 8}
    (hmap : map = setBits g.cg.blksfree (b * fs.frag + pos) n) {frsum : Nat → Int}
    (hfr : frsum = fragacct fs.frag (blkmap fs.frag map (b * fs.frag))
      (fragacct fs.frag (blkmap fs.frag g.cg.blksfree (b * fs.frag)) g.cg.frsum (-1)) 1) {v' : Vol}
    (hv' : v' = if isblock fs.frag map b then
      v.put c { g with
        cg := { g.cg with
          blksfree := map, frsum := frsum, nbfree := g.cg.nbfree + 1,
          nffree := g.cg.nffree + n - fs.frag },
        cluster := clusteracct g.cluster b 1 } 1 (n - fs.frag)
      else v.put c { g with cg := { g.cg with
        blksfree := map, frsum := frsum, nffree := g.cg.nffree + n } } 0 n) :
    VolOk fs v' ∧ Gives v v' c (b * fs.frag + pos) n := by
  have hpos := hl.pos
  have hbits : ∀ f, mapBit map f =
      (decide (b * fs.frag + pos ≤ f ∧ f < b * fs.frag + pos + n) || mapBit g.cg.blksfree f) := by
    intro f
    rw [hmap, mapBit_setBits]
  have hrest : ∀ f, f / fs.frag ≠ b → mapBit map f = mapBit g.cg.blksfree f := by
    intro f hf
    have hout : ¬ (b * fs.frag + pos ≤ f ∧ f < b * fs.frag + pos + n) :=
      fun hin => hf ((div_block hpos b f).mpr ⟨f - b * fs.frag, by omega, by omega⟩)
    rw [hbits, decide_eq_false hout, Bool.false_or]
  have hblock : ∀ j < fs.frag, mapBit map (b * fs.frag + j) =
      (mapBit g.cg.blksfree (b * fs.frag + j) || decide (pos ≤ j ∧ j < pos + n)) := by
    intro j _
    rw [hbits, Bool.or_comm]
    congr 1
    exact decide_eq_decide.mpr (by omega)
  have hinside : ∀ j < fs.frag, mapBit map (b * fs.frag + j) = true →
      b * fs.frag + j < g.cg.ndblk := by
    intro j hj hset
    rw [hblock j hj, Bool.or_eq_true, decide_eq_true_eq] at hset
    rcases hset with hset | hset
    · exact hg.counts.inMap _ (mapBlks_in hb hj) hset
    · omega
  rcases give_counts hn hrow hclear hblock with ⟨hw, hloose⟩
  have hruns : ∀ k, 0 < k → k < fs.frag → frsum k = g.cg.frsum k +
      (runsOf (mapBit map) fs.frag b k - runsOf (mapBit g.cg.blksfree) fs.frag b k) := by
    intro k hk hlt
    rw [hfr, fragacct_apply hl.frag (blkmap_bits hl.frag map b) _ 1 hk hlt,
      fragacct_apply hl.frag (blkmap_bits hl.frag g.cg.blksfree b) _ (-1) hk hlt]
    ring
  have hnot : ¬ WholeFree (mapBit g.cg.blksfree) fs.frag b := by
    intro hwhole
    rw [wholeOf, if_pos hwhole] at hw
    omega
  have hgives : ∀ f, mapBit map f =
      (decide (b * fs.frag + pos ≤ f ∧ f < b * fs.frag + pos + n) || v.bit c f) := by
    intro f
    rw [hbits, hsame.map, Vol.bit]
  rw [hv']
  by_cases hwhole : isblock fs.frag map b = true
  · have hfree := (isblock_iff hl.frag map b).mp hwhole
    have hone : wholeOf (mapBit map) fs.frag b = 1 := if_pos hfree
    rw [hone] at hloose
    have hacc : Accounted fs.toFs { g.cg with
        blksfree := map, frsum := frsum, nbfree := g.cg.nbfree + 1,
        nffree := g.cg.nffree + n - fs.frag } :=
      hg.counts.change hpos hb hrest hinside (by rw [hone, hw]; ring) (by rw [hloose]; ring) hruns
    rw [if_pos hwhole]
    refine ⟨h.put hc (hg.flip hacc rfl (fun d hd => wholeFree_congr hpos hd hrest)
      (iff_of_true hfree Int.one_pos) _) ?_ ?_, put_gives hgives⟩
    · rw [← hsame.nbfree]
    · rw [← hsame.nffree]
      ring
  have hbroken : ¬ WholeFree (mapBit map) fs.frag b :=
    fun hfree => hwhole ((isblock_iff hl.frag map b).mpr hfree)
  have hzero : wholeOf (mapBit map) fs.frag b = 0 := if_neg hbroken
  rw [hzero] at hloose
  have hacc : Accounted fs.toFs { g.cg with
      blksfree := map, frsum := frsum, nffree := g.cg.nffree + n } :=
    hg.counts.change hpos hb hrest hinside (by rw [hzero, hw]; ring) (by rw [hloose]; ring) hruns
  rw [if_neg hwhole]
  refine ⟨h.put hc (hg.same hacc rfl (fun d => ?_) _) ?_ ?_, put_gives hgives⟩
  · by_cases hd : d = b
    · rw [hd]
      exact iff_of_false hbroken hnot
    · exact wholeFree_congr hpos hd hrest
  · rw [← hsame.nbfree, Int.add_zero]
  · rw [← hsame.nffree]

end

end FreeBSDKern.Ffs
