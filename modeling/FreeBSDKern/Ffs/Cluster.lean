import FreeBSDKern.Lib.Run
import FreeBSDKern.Lib.Runs

/-!
# The Cluster Summary of a Cylinder Group

A cylinder group has a map of its free blocks, and counts how many maximal runs
of free blocks there are of each length. Runs longer than `fs_contigsumsize`
count as runs of that length. `ffs_clusteracct` keeps the counts when a block is
allocated or freed: it looks at no more than `fs_contigsumsize` blocks on either
side, which is enough to tell the runs that end there, capped like the counts.

The map is memory that goes on before and behind the bits of the blocks. Both
walks load the byte next to the last one they test, and the one backward from
block 0 computes a place before the map. None of these bytes is tested. The
counts and positions are those of a group in one buffer of at most 65536 bytes,
so they do not reach the bounds of an `int`.

`ffs_clusteralloc` looks at the largest length with a count, and at the counts,
before it searches the map.

## Main definitions

* `Cluster`: The map, the counts and the largest length.
* `clusteracct`: The update.
* `clusteralloc`: The search, up to the place that is found.
* `Exact`, `Largest`: What the counts and the largest length are.

## Theorems

* `forwLoop_spec`, `backLoop_spec`: What the two walks find.
* `clusteracct_exact`: One update keeps the counts exact.
* `clusterSearch_spec`: The search finds the first cluster there is.
* `clustersum_exact`: The counts are exact in every run, and no group that has a
  cluster is passed over because of them.
-/

namespace FreeBSDKern.Ffs

open Lib Function

/-- `NBBY`, the bits in a byte. -/
def nbby : Int := 8

/-- The fields of the file system and the cylinder group that are used. -/
structure Cluster where
  contigsumsize : Int
  nclusterblks : Nat
  /-- The memory from the map of free blocks on. -/
  clustersfree : Int → BitVec 8
  clustersum : Int → Int
  maxcluster : Int

def setbit (a : Int → BitVec 8) (i : Int) : Int → BitVec 8 :=
  update a (i.tdiv nbby) (a (i.tdiv nbby) ||| 1#8 <<< (i.tmod nbby).toNat)

def clrbit (a : Int → BitVec 8) (i : Int) : Int → BitVec 8 :=
  update a (i.tdiv nbby) (a (i.tdiv nbby) &&& ~~~(1#8 <<< (i.tmod nbby).toNat))

/-- The walk forward over `n` blocks from `i`. It ends at a clear bit. -/
def forwLoop (freemapp : Int → BitVec 8) : Nat → Int → Int → Nat → Nat → Int
  | 0, i, _, _, _ => i
  | n + 1, i, mapp, map, bit =>
    if map &&& bit = 0 then i
    else if i % nbby ≠ nbby - 1 then forwLoop freemapp n (i + 1) mapp map (bit <<< 1)
    else forwLoop freemapp n (i + 1) (mapp + 1) (freemapp mapp).toNat 1

/-- The walk backward. -/
def backLoop (freemapp : Int → BitVec 8) : Nat → Int → Int → Nat → Nat → Int
  | 0, i, _, _, _ => i
  | n + 1, i, mapp, map, bit =>
    if map &&& bit = 0 then i
    else if i % nbby ≠ 0 then backLoop freemapp n (i - 1) mapp map (bit >>> 1)
    else backLoop freemapp n (i - 1) (mapp - 1) (freemapp mapp).toNat (1 <<< (nbby - 1).toNat)

/-- The largest length up to `i` with a count. -/
def topLoop (sump : Int → Int) : Nat → Int
  | 0 => 0
  | i + 1 => if sump (i + 1 : Nat) > 0 then (i + 1 : Nat) else topLoop sump i

/-- `sump[i] += cnt`. -/
def bump (sump : Int → Int) (i cnt : Int) : Int → Int := update sump i (sump i + cnt)

/-- `ffs_clusteracct`: `cnt` is 1 when the block is freed and -1 when it is allocated. -/
def clusteracct (s : Cluster) (blkno cnt : Int) : Cluster :=
  if s.contigsumsize ≤ 0 then s
  else
    -- Allocate or clear the actual block.
    let freemapp := if cnt > 0 then setbit s.clustersfree blkno else clrbit s.clustersfree blkno
    -- Find the size of the cluster going forward.
    let start := blkno + 1
    let e := start + s.contigsumsize
    let e := if e ≥ s.nclusterblks then (s.nclusterblks : Int) else e
    let mapp := start.tdiv nbby
    let i := forwLoop freemapp (e - start).toNat start (mapp + 1) (freemapp mapp).toNat
      (1 <<< (start.tmod nbby).toNat)
    let forw := i - start
    -- Find the size of the cluster going backward.
    let start := blkno - 1
    let e := start - s.contigsumsize
    let e := if e < 0 then -1 else e
    let mapp := start.tdiv nbby
    let i := backLoop freemapp (start - e).toNat start (mapp - 1) (freemapp mapp).toNat
      (1 <<< (start.tmod nbby).toNat)
    let back := start - i
    -- Account for the old cluster and the possibly new forward and back clusters.
    let i := back + forw + 1
    let i := if i > s.contigsumsize then s.contigsumsize else i
    let sump := bump s.clustersum i cnt
    let sump := if back > 0 then bump sump back (-cnt) else sump
    let sump := if forw > 0 then bump sump forw (-cnt) else sump
    { s with clustersfree := freemapp, clustersum := sump,
             maxcluster := topLoop sump s.contigsumsize.toNat }

/-- How a search of a group ends. -/
inductive Clusteralloc where
  /-- `fs_maxcluster` is too small: the group is not read. -/
  | skipped
  /-- The group could not be read. -/
  | unreadable
  /-- No count says that there is a cluster. `fs_maxcluster` is set. -/
  | noSummary (maxcluster : Int)
  /-- There is none from the preference on. -/
  | notFound
  /-- The cluster that ends with the block has been found. -/
  | found (got : Int)

/-- The first length from `i` on with a count, in `n` lengths. -/
def sumLoop (sump : Int → Int) : Nat → Int → Int
  | 0, i => i
  | n + 1, i => if sump i > 0 then i else sumLoop sump n (i + 1)

/-- The search of the map, over `n` blocks from `got`. -/
def clusterSearch (freemapp : Int → BitVec 8) (len : Int) :
    Nat → Int → Int → Nat → Nat → Int → Option Int
  | 0, _, _, _, _, _ => none
  | n + 1, got, mapp, map, bit, run =>
    let run := if map &&& bit = 0 then 0 else run + 1
    if map &&& bit ≠ 0 ∧ run = len then some got
    else if got % nbby ≠ nbby - 1 then
      clusterSearch freemapp len n (got + 1) mapp map (bit <<< 1) run
    else clusterSearch freemapp len n (got + 1) (mapp + 1) (freemapp mapp).toNat 1 run

/-- `ffs_clusteralloc` up to the place that is found, with the block of the group
    that the preference stands for. -/
def clusteralloc (s : Cluster) (readable : Bool) (bpref len : Int) : Clusteralloc :=
  if s.maxcluster < len then .skipped
  else if !readable then .unreadable
  else
    let i := sumLoop s.clustersum (s.contigsumsize + 1 - len).toNat len
    if i > s.contigsumsize then .noSummary (topLoop s.clustersum (len - 1).toNat)
    else
      let mapp := bpref.tdiv nbby
      match clusterSearch s.clustersfree len (s.nclusterblks - bpref).toNat bpref (mapp + 1)
        (s.clustersfree mapp).toNat (1 <<< (bpref.tmod nbby).toNat) 0 with
      | none => .notFound
      | some got => .found got

/-- The bit of a block. -/
def isset (a : Int → BitVec 8) (i : Nat) : Bool := (a (i / 8 : Nat)).getLsbD (i % 8)

/-- The lengths of the maximal runs of free blocks. -/
def Cluster.runs (s : Cluster) : List Nat :=
  Lib.runs (window (isset s.clustersfree) 0 s.nclusterblks)

/-- There are `len` free blocks in a row. -/
def HasCluster (s : Cluster) (len : Nat) : Prop :=
  ∃ p, p + len ≤ s.nclusterblks ∧ ∀ i, p ≤ i → i < p + len → isset s.clustersfree i = true

/-- The counts are those of the maximal runs, the last one that of all runs that are
    not shorter. -/
structure Exact (s : Cluster) : Prop where
  below : ∀ k : Nat, 0 < k → (k : Int) < s.contigsumsize → s.clustersum k = s.runs.count k
  top : s.clustersum s.contigsumsize = s.runs.countP (s.contigsumsize.toNat ≤ ·)

/-- `fs_maxcluster` is the largest length with a count, or 0. -/
structure Largest (s : Cluster) : Prop where
  bounds : 0 ≤ s.maxcluster ∧ s.maxcluster ≤ s.contigsumsize
  counted : 0 < s.maxcluster → 0 < s.clustersum s.maxcluster
  none_above : ∀ k, s.maxcluster < k → k ≤ s.contigsumsize → s.clustersum k ≤ 0

/-! ## The bits -/

theorem tdiv_cast (i : Nat) : (i : Int).tdiv nbby = ((i / 8 : Nat) : Int) := by
  rw [nbby, Int.tdiv_eq_ediv_of_nonneg (Int.natCast_nonneg i)]
  rfl

theorem tmod_cast (i : Nat) : ((i : Int).tmod nbby).toNat = i % 8 := by
  rw [nbby, Int.tmod_eq_emod_of_nonneg (Int.natCast_nonneg i)]
  omega

theorem isset_setbit (a : Int → BitVec 8) (p : Nat) :
    isset (setbit a p) = update (isset a) p true := by
  ext i
  rw [setbit, tdiv_cast, tmod_cast, isset, update_apply, update_apply, isset]
  by_cases hbyte : i / 8 = p / 8
  · rw [if_pos (congrArg Nat.cast hbyte), hbyte, BitVec.getLsbD_or, ← BitVec.twoPow_eq,
      BitVec.getLsbD_twoPow]
    by_cases hbit : i % 8 = p % 8
    · have heq : i = p := by omega
      rw [if_pos heq, hbit]
      simp
      omega
    have hne : i ≠ p := fun heq => hbit (by rw [heq])
    rw [if_neg hne]
    simp [Ne.symm hbit]
  · have hne : i ≠ p := fun heq => hbyte (by rw [heq])
    rw [if_neg (by omega), if_neg hne]

theorem isset_clrbit (a : Int → BitVec 8) (p : Nat) :
    isset (clrbit a p) = update (isset a) p false := by
  ext i
  rw [clrbit, tdiv_cast, tmod_cast, isset, update_apply, update_apply, isset]
  by_cases hbyte : i / 8 = p / 8
  · rw [if_pos (congrArg Nat.cast hbyte), hbyte, BitVec.getLsbD_and, BitVec.getLsbD_not,
      ← BitVec.twoPow_eq, BitVec.getLsbD_twoPow]
    by_cases hbit : i % 8 = p % 8
    · have heq : i = p := by omega
      rw [if_pos heq, hbit]
      simp
    have hne : i ≠ p := fun heq => hbit (by rw [heq])
    have hlt : i % 8 < 8 := Nat.mod_lt i (by decide)
    rw [if_neg hne]
    simp [Ne.symm hbit, hlt]
  · have hne : i ≠ p := fun heq => hbyte (by rw [heq])
    rw [if_neg (by omega), if_neg hne]

/-! ## The walks -/

/-- The byte of a block has been loaded, and the mask is that of its bit. -/
structure Loaded (a : Int → BitVec 8) (i : Nat) (map bit : Nat) : Prop where
  byte : map = (a (i / 8 : Nat)).toNat
  mask : bit = 1 <<< (i % 8)

variable {a : Int → BitVec 8} {i p len : Nat} {s : Cluster}

theorem Loaded.test {map bit : Nat} (h : Loaded a i map bit) :
    map &&& bit = 0 ↔ isset a i = false := by
  rw [h.byte, h.mask, Nat.one_shiftLeft, Nat.and_two_pow, isset, BitVec.getLsbD]
  cases (a (i / 8 : Nat)).toNat.testBit (i % 8) with
  | false => simp
  | true => simp

theorem loaded_start (a : Int → BitVec 8) (i : Nat) :
    Loaded a i (a ((i : Int).tdiv nbby)).toNat (1 <<< ((i : Int).tmod nbby).toNat) where
  byte := by rw [tdiv_cast]
  mask := by rw [tmod_cast]

-- The next block is in the same byte, or is the first one of the next byte.
theorem Loaded.same {map bit : Nat} (h : Loaded a i map bit) (hin : (i : Int) % nbby ≠ nbby - 1) :
    Loaded a (i + 1) map (bit <<< 1) where
  byte := by
    have hdiv : (i + 1) / 8 = i / 8 := by
      unfold nbby at hin
      omega
    rw [h.byte, hdiv]
  mask := by
    have hmod : (i + 1) % 8 = i % 8 + 1 := by
      unfold nbby at hin
      omega
    rw [h.mask, hmod, Nat.shiftLeft_add]

theorem loaded_next (a : Int → BitVec 8) (hout : ¬(i : Int) % nbby ≠ nbby - 1) :
    Loaded a (i + 1) (a (((i / 8 : Nat) : Int) + 1)).toNat 1 ∧
      ((i / 8 : Nat) : Int) + 1 = (((i + 1) / 8 : Nat) : Int) := by
  have hdiv : ((i / 8 : Nat) : Int) + 1 = (((i + 1) / 8 : Nat) : Int) := by
    unfold nbby at hout
    omega
  have hmod : (i + 1) % 8 = 0 := by
    unfold nbby at hout
    omega
  exact ⟨⟨by rw [hdiv], by rw [hmod, Nat.shiftLeft_zero]⟩, hdiv⟩

/-- The walk forward finds the first clear bit among the `n` from `i` on. -/
theorem forwLoop_spec (a : Int → BitVec 8) : ∀ (n i map bit : Nat), Loaded a i map bit →
    ∃ m, m ≤ n ∧ forwLoop a n i ((i / 8 : Nat) + 1) map bit = ((i + m : Nat) : Int) ∧
      (∀ j, i ≤ j → j < i + m → isset a j = true) ∧ (m < n → isset a (i + m) = false) := by
  intro n
  induction n with
  | zero =>
    intro i map bit _
    exact ⟨0, Nat.le_refl 0, by rw [forwLoop, Nat.add_zero], fun j _ _ => by omega,
      fun _ => by omega⟩
  | succ n ih =>
    intro i map bit h
    rw [forwLoop]
    by_cases htest : map &&& bit = 0
    · refine ⟨0, zero_le, by rw [if_pos htest, Nat.add_zero], fun j _ _ => by omega,
        fun _ => h.test.mp htest⟩
    have hset : isset a i = true := by
      rw [← Bool.not_eq_false]
      exact fun hclear => htest (h.test.mpr hclear)
    -- The rest of the walk starts at the next block.
    have hrest : ∀ r : Int, (∃ m, m ≤ n ∧ r = ((i + 1 + m : Nat) : Int) ∧
        (∀ j, i + 1 ≤ j → j < i + 1 + m → isset a j = true) ∧
        (m < n → isset a (i + 1 + m) = false)) → ∃ m, m ≤ n + 1 ∧ r = ((i + m : Nat) : Int) ∧
          (∀ j, i ≤ j → j < i + m → isset a j = true) ∧ (m < n + 1 → isset a (i + m) = false) := by
      intro r hr
      obtain ⟨m, hm, heq, hall, hend⟩ := hr
      have hadd : i + (m + 1) = i + 1 + m := by omega
      refine ⟨m + 1, by omega, by rw [hadd, heq], fun j hj hlt => ?_, fun hlt => ?_⟩
      · by_cases hji : j = i
        · rw [hji, hset]
        · exact hall j (by omega) (by omega)
      · rw [hadd]
        exact hend (by omega)
    rw [if_neg htest]
    split
    case isTrue hin =>
      have hdiv : (i + 1) / 8 = i / 8 := by
        unfold nbby at hin
        omega
      have hstep := ih (i + 1) map (bit <<< 1) (h.same hin)
      rw [hdiv] at hstep
      exact hrest _ hstep
    case isFalse hout =>
    obtain ⟨hloaded, hdiv⟩ := loaded_next a hout
    have hstep := ih (i + 1) _ 1 hloaded
    rw [← hdiv] at hstep
    exact hrest _ hstep

/-- The walk backward finds the last clear bit among the `n` before `p`. -/
theorem backLoop_spec (a : Int → BitVec 8) : ∀ (n p map bit : Nat), n ≤ p →
    (0 < n → Loaded a (p - 1) map bit) →
    ∃ m, m ≤ n ∧ backLoop a n ((p : Int) - 1) (((p - 1) / 8 : Nat) - 1) map bit =
        (p : Int) - 1 - m ∧
      (∀ j, p - m ≤ j → j < p → isset a j = true) ∧ (m < n → isset a (p - m - 1) = false) := by
  intro n
  induction n with
  | zero =>
    intro p map bit _ _
    exact ⟨0, Nat.le_refl 0, by rw [backLoop]; omega, fun j _ _ => by omega, fun _ => by omega⟩
  | succ n ih =>
    intro p map bit hn h
    obtain ⟨q, rfl⟩ : ∃ q, p = q + 1 := ⟨p - 1, by omega⟩
    replace h := h (Nat.succ_pos n)
    rw [Nat.add_sub_cancel] at h
    have hcast : ((q + 1 : Nat) : Int) - 1 = (q : Int) := by omega
    rw [hcast, Nat.add_sub_cancel, backLoop]
    by_cases htest : map &&& bit = 0
    · refine ⟨0, zero_le, by rw [if_pos htest]; omega, fun j _ _ => by omega, fun _ => ?_⟩
      rw [Nat.sub_zero, Nat.add_sub_cancel]
      exact h.test.mp htest
    have hset : isset a q = true := by
      rw [← Bool.not_eq_false]
      exact fun hclear => htest (h.test.mpr hclear)
    have hrest : ∀ r : Int, (∃ m, m ≤ n ∧ r = (q : Int) - 1 - m ∧
        (∀ j, q - m ≤ j → j < q → isset a j = true) ∧ (m < n → isset a (q - m - 1) = false)) →
        ∃ m, m ≤ n + 1 ∧ r = (q : Int) - m ∧ (∀ j, q + 1 - m ≤ j → j < q + 1 → isset a j = true) ∧
          (m < n + 1 → isset a (q + 1 - m - 1) = false) := by
      intro r hr
      obtain ⟨m, hm, heq, hall, hend⟩ := hr
      have hsub : q + 1 - (m + 1) - 1 = q - m - 1 := by omega
      refine ⟨m + 1, by omega, by omega, fun j hj hlt => ?_, fun hlt => ?_⟩
      · by_cases hjq : j = q
        · rw [hjq, hset]
        · exact hall j (by omega) (by omega)
      · rw [hsub]
        exact hend (by omega)
    rw [if_neg htest]
    split
    case isTrue hin =>
      have hdiv : (q - 1) / 8 = q / 8 := by
        unfold nbby at hin
        omega
      have hmod : q % 8 = (q - 1) % 8 + 1 := by
        unfold nbby at hin
        omega
      have hstep := ih q map (bit >>> 1) (by omega) (fun _ => ⟨by rw [h.byte, hdiv], by
        rw [h.mask, hmod, Nat.shiftLeft_add, Nat.shiftLeft_shiftRight]⟩)
      rw [hdiv] at hstep
      exact hrest _ hstep
    case isFalse hout =>
    by_cases hq : q = 0
    · -- Before block 0 the walk is over.
      have hzero : n = 0 := by omega
      subst hzero
      refine hrest _ ⟨0, Nat.le_refl 0, ?_, fun j _ _ => by omega, fun _ => by omega⟩
      rw [backLoop]
      omega
    have hdiv : ((q / 8 : Nat) : Int) - 1 = (((q - 1) / 8 : Nat) : Int) := by
      unfold nbby at hout
      omega
    have hmod : (q - 1) % 8 = 7 := by
      unfold nbby at hout
      omega
    have hstep := ih q (a (((q - 1) / 8 : Nat) : Int)).toNat (1 <<< 7) (by omega)
      (fun _ => ⟨rfl, by rw [hmod]⟩)
    rw [← hdiv] at hstep
    exact hrest _ hstep

/-! ## The counts -/

/-- The count of a length, with longer runs counted as runs of length `n`. -/
def capped (n : Nat) (l : List Nat) (k : Nat) : Int := (l.map (min n)).count k

theorem capped_append (n : Nat) (l l' : List Nat) (k : Nat) :
    capped n (l ++ l') k = capped n l k + capped n l' k := by
  rw [capped, List.map_append, List.count_append, Int.natCast_add]
  rfl

theorem capped_piece (n m k : Nat) :
    capped n (piece m) k = if 0 < m ∧ min n m = k then 1 else 0 := by
  unfold capped piece
  by_cases hm : m = 0
  · rw [if_pos hm, if_neg (by omega)]
    rfl
  rw [if_neg hm, List.map_singleton, List.count_singleton]
  simp only [beq_iff_eq, Nat.pos_of_ne_zero hm, true_and]
  split <;> rfl

theorem capped_below {n k : Nat} (l : List Nat) (hk : k < n) : capped n l k = l.count k := by
  have hcount : (l.map (min n)).count k = l.count k := by
    rw [List.count_eq_countP, List.countP_map, List.count_eq_countP]
    refine List.countP_congr (fun x _ => ?_)
    simp only [comp_apply, beq_iff_eq]
    omega
  rw [capped, hcount]

theorem capped_top (n : Nat) (l : List Nat) : capped n l n = l.countP (n ≤ ·) := by
  have hcount : (l.map (min n)).count n = l.countP (n ≤ ·) := by
    rw [List.count_eq_countP, List.countP_map]
    refine List.countP_congr (fun x _ => ?_)
    simp only [comp_apply, beq_iff_eq, decide_eq_true_eq]
    omega
  rw [capped, hcount]

/-- The counts in one formula. -/
theorem exact_iff (hn : 0 < s.contigsumsize) :
    Exact s ↔ ∀ k : Nat, 0 < k → (k : Int) ≤ s.contigsumsize →
      s.clustersum k = capped s.contigsumsize.toNat s.runs k := by
  have hcast : ((s.contigsumsize.toNat : Nat) : Int) = s.contigsumsize :=
    Int.toNat_of_nonneg (by omega)
  constructor
  · intro h k hk hle
    rcases Int.lt_or_eq_of_le hle with hlt | heq
    · rw [capped_below _ (by omega)]
      exact h.below k hk hlt
    have hkn : k = s.contigsumsize.toNat := by omega
    rw [heq, hkn, capped_top]
    exact h.top
  intro h
  refine ⟨fun k hk hlt => ?_, ?_⟩
  · rw [h k hk (Int.le_of_lt hlt), capped_below _ (by omega)]
  have htop := h s.contigsumsize.toNat (by omega) (by omega)
  rw [capped_top, hcast] at htop
  exact htop

theorem bump_apply (sump : Int → Int) (i cnt k : Int) :
    bump sump i cnt k = sump k + if k = i then cnt else 0 := by
  unfold bump
  by_cases hk : k = i
  · rw [hk, update_self, if_pos rfl]
  · rw [update_of_ne hk, if_neg hk, Int.add_zero]

theorem topLoop_spec (sump : Int → Int) : ∀ n : Nat, 0 ≤ topLoop sump n ∧ topLoop sump n ≤ n ∧
    (0 < topLoop sump n → 0 < sump (topLoop sump n)) ∧
    ∀ k : Int, topLoop sump n < k → k ≤ n → sump k ≤ 0 := by
  intro n
  induction n with
  | zero =>
    refine ⟨Int.le_refl 0, Int.le_refl 0, fun h => absurd h (Int.lt_irrefl 0), fun k h h' => ?_⟩
    rw [topLoop] at h
    omega
  | succ n ih =>
    obtain ⟨hnonneg, hle, hcounted, habove⟩ := ih
    rw [topLoop]
    split
    case isTrue hpos => exact ⟨by omega, Int.le_refl _, fun _ => hpos, fun k h h' => by omega⟩
    case isFalse hnot =>
    refine ⟨hnonneg, by omega, hcounted, fun k h h' => ?_⟩
    by_cases hk : k = ((n + 1 : Nat) : Int)
    · rw [hk]
      omega
    · exact habove k h (by omega)

theorem topLoop_largest (hn : 0 < s.contigsumsize)
    (hmax : s.maxcluster = topLoop s.clustersum s.contigsumsize.toNat) : Largest s := by
  obtain ⟨hnonneg, hle, hcounted, habove⟩ := topLoop_spec s.clustersum s.contigsumsize.toNat
  rw [← hmax] at hnonneg hle hcounted habove
  exact ⟨⟨hnonneg, by omega⟩, hcounted, fun k h h' => habove k h (by omega)⟩

/-! ## One update -/

/-- A block whose bit changes: it is freed and was in use, or allocated and was free. -/
def Changes (s : Cluster) (blkno cnt : Int) : Prop :=
  0 ≤ blkno ∧ blkno < s.nclusterblks ∧ (cnt = 1 ∧ isset s.clustersfree blkno.toNat = false ∨
      cnt = -1 ∧ isset s.clustersfree blkno.toNat = true)

/-- The bits after the update. -/
theorem isset_clusteracct (hn : 0 < s.contigsumsize) (p : Nat) {cnt : Int} :
    isset (clusteracct s p cnt).clustersfree =
      update (isset s.clustersfree) p (decide (cnt > 0)) := by
  rw [clusteracct, if_neg (by omega)]
  by_cases hcnt : cnt > 0
  · simp only [hcnt, if_true, decide_true]
    exact isset_setbit _ _
  · simp only [hcnt, if_false, decide_false]
    exact isset_clrbit _ _

/-- The walk forward finds the set bits behind a block, as far as they count. -/
theorem forw_eq {n : Int} (hn : 0 < n) {N forw : Nat} (hforw : p + 1 + forw ≤ N)
    (hset : ∀ i, p + 1 ≤ i → i < p + 1 + forw → isset a i = true)
    (hclear : p + 1 + forw < N → isset a (p + 1 + forw) = false) :
    forwLoop a ((if (p : Int) + 1 + n ≥ N then (N : Int) else p + 1 + n) - (p + 1)).toNat (p + 1)
      (((p : Int) + 1).tdiv nbby + 1) (a (((p : Int) + 1).tdiv nbby)).toNat
      (1 <<< (((p : Int) + 1).tmod nbby).toNat) - (p + 1) = min n forw := by
  have hcount : ((if (p : Int) + 1 + n ≥ N then (N : Int) else p + 1 + n) - (p + 1)).toNat =
      min n.toNat (N - (p + 1)) := by
    split <;> omega
  have hcast : (p : Int) + 1 = ((p + 1 : Nat) : Int) := by omega
  obtain ⟨m, hm, hrun, hall, hend⟩ :=
    forwLoop_spec a (min n.toNat (N - (p + 1))) (p + 1) _ _ (loaded_start a (p + 1))
  rw [hcount, hcast, tdiv_cast] at *
  rw [hrun]
  -- The set bits end with the walk, or the walk ends before them.
  have hle : m ≤ forw := by
    by_contra hlt
    have hone := hall (p + 1 + forw) (by omega) (by omega)
    rw [hclear (by omega)] at hone
    exact absurd hone (by decide)
  have hge : min n.toNat forw ≤ m := by
    by_contra hlt
    have hzero := hend (by omega)
    rw [hset (p + 1 + m) (by omega) (by omega)] at hzero
    exact absurd hzero (by decide)
  omega

/-- The walk backward finds those before it. -/
theorem back_eq {n : Int} (hn : 0 < n) {back : Nat} (hback : back ≤ p)
    (hset : ∀ i, p - back ≤ i → i < p → isset a i = true)
    (hclear : back < p → isset a (p - back - 1) = false) :
    (p : Int) - (1 : Int) - backLoop a ((p : Int) - 1 - if (p : Int) - 1 - n < 0 then (-1 : Int)
        else p - 1 - n).toNat (p - 1) (((p : Int) - 1).tdiv nbby - 1)
      (a (((p : Int) - 1).tdiv nbby)).toNat (1 <<< (((p : Int) - 1).tmod nbby).toNat) =
      min n back := by
  have hcount : ((p : Int) - 1 - if (p : Int) - 1 - n < 0 then (-1 : Int)
      else p - 1 - n).toNat = min n.toNat p := by
    split <;> omega
  have hdiv : ((p : Int) - 1).tdiv nbby = (((p - 1) / 8 : Nat) : Int) := by
    cases p with
    | zero => rfl
    | succ q =>
      have hcast : ((q + 1 : Nat) : Int) - 1 = (q : Int) := by omega
      rw [hcast, tdiv_cast, Nat.add_sub_cancel]
  have hloaded : 0 < min n.toNat p → Loaded a (p - 1) (a (((p - 1) / 8 : Nat) : Int)).toNat
      (1 <<< (((p : Int) - 1).tmod nbby).toNat) := by
    intro hpos
    have hcast : (p : Int) - 1 = ((p - 1 : Nat) : Int) := by omega
    exact ⟨rfl, by rw [hcast, tmod_cast]⟩
  obtain ⟨m, hm, hrun, hall, hend⟩ :=
    backLoop_spec a (min n.toNat p) p _ _ (Nat.min_le_right _ _) hloaded
  rw [hcount, hdiv, hrun]
  have hle : m ≤ back := by
    by_contra hlt
    have hone := hall (p - back - 1) (by omega) (by omega)
    rw [hclear (by omega)] at hone
    exact absurd hone (by decide)
  have hge : min n.toNat back ≤ m := by
    by_contra hlt
    have hzero := hend (by omega)
    rw [hset (p - m - 1) (by omega) (by omega)] at hzero
    exact absurd hzero (by decide)
  omega

/-- The update for the numbers of set bits on either side. -/
theorem clustersum_clusteracct (hn : 0 < s.contigsumsize) (cnt : Int) {back forw : Nat}
    (hback : back ≤ p) (hsetb : ∀ i, p - back ≤ i → i < p → isset s.clustersfree i = true)
    (hclearb : back < p → isset s.clustersfree (p - back - 1) = false)
    (hforw : p + 1 + forw ≤ s.nclusterblks)
    (hsetf : ∀ i, p + 1 ≤ i → i < p + 1 + forw → isset s.clustersfree i = true)
    (hclearf : p + 1 + forw < s.nclusterblks → isset s.clustersfree (p + 1 + forw) = false) :
    ∀ k : Int, (clusteracct s p cnt).clustersum k = s.clustersum k +
      (if k = min s.contigsumsize (back + 1 + forw) then cnt else 0) +
      (if 0 < back ∧ k = min s.contigsumsize back then -cnt else 0) +
      if 0 < forw ∧ k = min s.contigsumsize forw then -cnt else 0 := by
  intro k
  have hbits := @isset_clusteracct s hn p cnt
  rw [clusteracct, if_neg (by omega)] at hbits ⊢
  dsimp only at hbits ⊢
  generalize (if cnt > 0 then setbit s.clustersfree p else clrbit s.clustersfree p) =
    freemapp at hbits ⊢
  -- The bits on either side of the block have not changed.
  have hother : ∀ i, i ≠ p → isset freemapp i = isset s.clustersfree i := by
    intro i hi
    rw [hbits, update_of_ne hi]
  have hf := forw_eq hn hforw (fun i hi hlt => by rw [hother i (by omega), hsetf i hi hlt])
    (fun hlt => by rw [hother _ (by omega), hclearf hlt])
  have hb := back_eq hn hback (fun i hi hlt => by rw [hother i (by omega), hsetb i hi hlt])
    (fun hlt => by rw [hother _ (by omega), hclearb hlt])
  rw [hf, hb]
  have hjoined : (if min s.contigsumsize (back : Int) + min s.contigsumsize (forw : Int) + 1 >
      s.contigsumsize then s.contigsumsize
      else min s.contigsumsize (back : Int) + min s.contigsumsize (forw : Int) + 1) =
      min s.contigsumsize (back + 1 + forw) := by
    split <;> omega
  rw [hjoined]
  have hposb : min s.contigsumsize (back : Int) > 0 ↔ 0 < back := by omega
  have hposf : min s.contigsumsize (forw : Int) > 0 ↔ 0 < forw := by omega
  simp only [hposb, hposf]
  by_cases hb0 : 0 < back
  · by_cases hf0 : 0 < forw
    · simp only [hb0, hf0, if_true, true_and, bump_apply]
    · simp only [hb0, hf0, if_true, if_false, true_and, false_and, bump_apply, Int.add_zero]
  by_cases hf0 : 0 < forw
  · simp only [hb0, hf0, if_true, if_false, true_and, false_and, bump_apply, Int.add_zero]
  · simp only [hb0, hf0, if_false, false_and, bump_apply, Int.add_zero]

/-- One update keeps the counts exact, and makes the largest length so. -/
theorem clusteracct_exact (hn : 0 < s.contigsumsize) (h : Exact s) {blkno cnt : Int}
    (hop : Changes s blkno cnt) :
    Exact (clusteracct s blkno cnt) ∧ Largest (clusteracct s blkno cnt) := by
  obtain ⟨hnonneg, hlt, hcnt⟩ := hop
  obtain ⟨p, rfl⟩ := Int.eq_ofNat_of_zero_le hnonneg
  rw [Int.toNat_natCast] at hcnt
  have hp : p < s.nclusterblks := by omega
  have hsize : (clusteracct s p cnt).contigsumsize = s.contigsumsize := by
    rw [clusteracct, if_neg (by omega)]
  have hblks : (clusteracct s p cnt).nclusterblks = s.nclusterblks := by
    rw [clusteracct, if_neg (by omega)]
  constructor
  · obtain ⟨back, forw, before, behind, hback, hsetb, hclearb, hforw, hsetf, hclearf, hapart,
      hjoined⟩ := runs_join (isset s.clustersfree) hp
    have hsum := clustersum_clusteracct hn cnt hback hsetb hclearb hforw hsetf hclearf
    have hbits := @isset_clusteracct s hn p cnt
    rw [exact_iff hn] at h
    rw [exact_iff (by rw [hsize]; exact hn)]
    intro k hk hle
    rw [hsize] at hle ⊢
    rw [hsum, h k hk hle]
    -- The map without the block and the map with it.
    have hcapped : ∀ m, (0 < m ∧ min s.contigsumsize.toNat m = k) ↔
        (0 < m ∧ (k : Int) = min s.contigsumsize m) := by
      intro m
      omega
    have hwithout : capped s.contigsumsize.toNat
        (runs (window (update (isset s.clustersfree) p false) 0 s.nclusterblks)) k =
        capped s.contigsumsize.toNat before k +
          (if 0 < back ∧ (k : Int) = min s.contigsumsize back then 1 else 0) +
          ((if 0 < forw ∧ (k : Int) = min s.contigsumsize forw then 1 else 0) +
          capped s.contigsumsize.toNat behind k) := by
      rw [hapart, capped_append, capped_append, capped_append, capped_piece, capped_piece]
      simp only [hcapped]
    have hwith : capped s.contigsumsize.toNat
        (runs (window (update (isset s.clustersfree) p true) 0 s.nclusterblks)) k =
        capped s.contigsumsize.toNat before k +
          (if (k : Int) = min s.contigsumsize (back + 1 + forw) then 1 else 0) +
          capped s.contigsumsize.toNat behind k := by
      rw [hjoined, capped_append, capped_append, capped_piece]
      simp only [hcapped]
      have hpos : 0 < back + 1 + forw := by omega
      simp only [hpos, true_and, Int.natCast_add]
      rfl
    rw [Cluster.runs, Cluster.runs, hbits, hblks]
    rcases hcnt with ⟨rfl, hbit⟩ | ⟨rfl, hbit⟩
    · have hold : update (isset s.clustersfree) p false = isset s.clustersfree := by
        rw [← hbit, update_eq_self]
      rw [hold] at hwithout
      have hone : decide ((1 : Int) > 0) = true := rfl
      rw [hone, hwithout, hwith]
      split_ifs <;> omega
    have hold : update (isset s.clustersfree) p true = isset s.clustersfree := by
      rw [← hbit, update_eq_self]
    rw [hold] at hwith
    have hone : decide ((-1 : Int) > 0) = false := rfl
    rw [hone, hwithout, hwith]
    split_ifs <;> omega
  · refine topLoop_largest (by rw [hsize]; exact hn) ?_
    rw [clusteracct, if_neg (by omega)]

/-! ## The search of a group -/

theorem sumLoop_spec (sump : Int → Int) : ∀ (n : Nat) (i : Int), i ≤ sumLoop sump n i ∧
    sumLoop sump n i ≤ i + n ∧ (sumLoop sump n i < i + n → 0 < sump (sumLoop sump n i)) ∧
    ∀ k, i ≤ k → k < sumLoop sump n i → sump k ≤ 0 := by
  intro n
  induction n with
  | zero =>
    intro i
    refine ⟨Int.le_refl i, by rw [sumLoop]; omega, fun h => ?_, fun k h h' => ?_⟩
    · rw [sumLoop] at h
      omega
    · rw [sumLoop] at h'
      omega
  | succ n ih =>
    intro i
    rw [sumLoop]
    split
    case isTrue hpos => exact ⟨Int.le_refl i, by omega, fun _ => hpos, fun k h h' => by omega⟩
    case isFalse hnot =>
    obtain ⟨hge, hle, hcounted, hbelow⟩ := ih (i + 1)
    refine ⟨by omega, by omega, fun h => hcounted (by omega), fun k h h' => ?_⟩
    by_cases hk : k = i
    · rw [hk]
      omega
    · exact hbelow k (by omega) h'

/-- A search so far: the last `run` blocks are free, and no cluster ends before. -/
structure Searching (a : Int → BitVec 8) (b len got run : Nat) : Prop where
  short : run < len
  inside : b + run ≤ got
  tail : ∀ i, got - run ≤ i → i < got → isset a i = true
  bounded : b + run < got → isset a (got - run - 1) = false
  none_yet : ∀ q, b ≤ q → q + len ≤ got → ∃ i, q ≤ i ∧ i < q + len ∧ isset a i = false

theorem clusterSearch_spec {b : Nat} :
    ∀ (n got map bit run : Nat), Loaded a got map bit → Searching a b len got run →
      match clusterSearch a len n got ((got / 8 : Nat) + 1) map bit run with
      | none => ∀ q, b ≤ q → q + len ≤ got + n → ∃ i, q ≤ i ∧ i < q + len ∧ isset a i = false
      | some g => ∃ q, b ≤ q ∧ q + len ≤ got + n ∧ g = ((q + len : Nat) : Int) - 1 ∧
          (∀ i, q ≤ i → i < q + len → isset a i = true) ∧
          ∀ q', b ≤ q' → q' < q → ∃ i, q' ≤ i ∧ i < q' + len ∧ isset a i = false := by
  intro n
  induction n with
  | zero =>
    intro got map bit run _ hs
    rw [clusterSearch]
    exact hs.none_yet
  | succ n ih =>
    intro got map bit run h hs
    rw [clusterSearch]
    -- What the search has seen after this block.
    have hnext : ∀ run' : Nat, ((if map &&& bit = 0 then 0 else (run : Int) + 1) = run') →
        ¬(map &&& bit ≠ 0 ∧ (run' : Int) = len) → Searching a b len (got + 1) run' := by
      intro run' hrun' hnot
      by_cases htest : map &&& bit = 0
      · rw [if_pos htest] at hrun'
        obtain rfl : run' = 0 := by omega
        have hclear := h.test.mp htest
        have hshort := hs.short
        refine ⟨by omega, by have := hs.inside; omega, fun i _ _ => by omega, fun _ => ?_,
          fun q hq hle => ?_⟩
        · rw [Nat.sub_zero, Nat.add_sub_cancel, hclear]
        by_cases hend : q + len ≤ got
        · exact hs.none_yet q hq hend
        · exact ⟨got, by omega, by omega, hclear⟩
      rw [if_neg htest] at hrun'
      obtain rfl : run' = run + 1 := by omega
      have hset : isset a got = true := by
        rw [← Bool.not_eq_false]
        exact fun hclear => htest (h.test.mpr hclear)
      have hshort := hs.short
      have hinside := hs.inside
      have hne : run + 1 ≠ len := fun heq => hnot ⟨htest, by omega⟩
      refine ⟨by omega, by omega, fun i hi hlt => ?_, fun hlt => ?_, fun q hq hle => ?_⟩
      · by_cases hig : i = got
        · rw [hig, hset]
        · exact hs.tail i (by omega) (by omega)
      · have hsub : got + 1 - (run + 1) - 1 = got - run - 1 := by omega
        rw [hsub]
        exact hs.bounded (by omega)
      by_cases hend : q + len ≤ got
      · exact hs.none_yet q hq hend
      · -- A cluster that ends here would be longer than the free blocks counted.
        exact ⟨got - run - 1, by omega, by omega, hs.bounded (by omega)⟩
    by_cases hfound : map &&& bit ≠ 0 ∧ (if map &&& bit = 0 then 0 else (run : Int) + 1) = len
    · rw [if_pos hfound]
      obtain ⟨htest, hlen⟩ := hfound
      rw [if_neg htest] at hlen
      have hset : isset a got = true := by
        rw [← Bool.not_eq_false]
        exact fun hclear => htest (h.test.mpr hclear)
      have hinside := hs.inside
      refine ⟨got - run, by omega, by omega, by omega, fun i hi hlt => ?_, fun q hq hlt => ?_⟩
      · by_cases hig : i = got
        · rw [hig, hset]
        · exact hs.tail i hi (by omega)
      by_cases hend : q + len ≤ got
      · exact hs.none_yet q hq hend
      · exact ⟨got - run - 1, by omega, by omega, hs.bounded (by omega)⟩
    rw [if_neg hfound]
    obtain ⟨run', hrun'⟩ : ∃ run' : Nat,
        (if map &&& bit = 0 then 0 else (run : Int) + 1) = run' := by
      split
      · exact ⟨0, rfl⟩
      · exact ⟨run + 1, rfl⟩
    rw [hrun'] at hfound ⊢
    have hs' := hnext run' hrun' hfound
    have hadd : got + 1 + n = got + (n + 1) := by omega
    by_cases hin : (got : Int) % nbby ≠ nbby - 1
    · have hdiv : (got + 1) / 8 = got / 8 := by
        unfold nbby at hin
        omega
      have hstep := ih (got + 1) map (bit <<< 1) run' (h.same hin) hs'
      rw [hdiv, hadd] at hstep
      rw [if_pos hin]
      exact hstep
    obtain ⟨hloaded, hdiv⟩ := loaded_next a hin
    have hstep := ih (got + 1) _ 1 run' hloaded hs'
    rw [← hdiv, hadd] at hstep
    rw [if_neg hin]
    exact hstep

/-- What a search that has looked at the map returns: the first cluster from the
    preference on, if there is one. -/
theorem clusteralloc_result (s : Cluster) (readable : Bool) (b len : Nat) (hlen : 0 < len)
    (hb : b ≤ s.nclusterblks) :
    (clusteralloc s readable b len = .notFound → ∀ q, b ≤ q → q + len ≤ s.nclusterblks →
      ∃ i, q ≤ i ∧ i < q + len ∧ isset s.clustersfree i = false) ∧
    ∀ got, clusteralloc s readable b len = .found got → ∃ q, b ≤ q ∧ q + len ≤ s.nclusterblks ∧
      got = ((q + len : Nat) : Int) - 1 ∧
      (∀ i, q ≤ i → i < q + len → isset s.clustersfree i = true) ∧
      ∀ q', b ≤ q' → q' < q → ∃ i, q' ≤ i ∧ i < q' + len ∧ isset s.clustersfree i = false := by
  have hstart : Searching s.clustersfree b len b 0 :=
    ⟨hlen, Nat.le_refl b, fun i _ _ => by omega, fun _ => by omega, fun q _ _ => by omega⟩
  have hspec := clusterSearch_spec (s.nclusterblks - b) b _ _ 0
    (loaded_start s.clustersfree b) hstart
  have hcount : ((s.nclusterblks : Int) - b).toNat = s.nclusterblks - b := by omega
  have hadd : b + (s.nclusterblks - b) = s.nclusterblks := by omega
  rw [hadd, ← hcount, ← tdiv_cast] at hspec
  unfold clusteralloc
  split
  · exact ⟨nofun, nofun⟩
  split
  · exact ⟨nofun, nofun⟩
  dsimp only
  split
  · exact ⟨nofun, nofun⟩
  revert hspec
  rw [Int.natCast_zero]
  cases clusterSearch s.clustersfree len ((s.nclusterblks : Int) - b).toNat b
    ((b : Int).tdiv nbby + 1) (s.clustersfree ((b : Int).tdiv nbby)).toNat
    (1 <<< ((b : Int).tmod nbby).toNat) 0 with
  | none => exact fun hspec => ⟨fun _ => hspec, nofun⟩
  | some g =>
    intro hspec
    refine ⟨nofun, fun got hgot => ?_⟩
    rw [Clusteralloc.found.injEq] at hgot
    rw [← hgot]
    exact hspec

/-- A group that has a cluster has a count that says so. -/
theorem exists_count (hn : 0 < s.contigsumsize) (h : Exact s) (hlen : 0 < len)
    (hle : (len : Int) ≤ s.contigsumsize) (hhas : HasCluster s len) :
    ∃ k : Nat, len ≤ k ∧ (k : Int) ≤ s.contigsumsize ∧ 0 < s.clustersum k := by
  obtain ⟨p, hp, hset⟩ := hhas
  obtain ⟨r, hr, hlr⟩ := exists_le_run hlen hp hset
  refine ⟨min s.contigsumsize.toNat r, by omega, by omega, ?_⟩
  rw [(exact_iff hn).mp h _ (by omega) (by omega), capped, Int.natCast_pos, List.count_pos_iff]
  exact List.mem_map_of_mem hr

/-- It is neither passed over unread nor given up for its counts. -/
theorem clusteralloc_looks (hn : 0 < s.contigsumsize) (h : Exact s)
    (hmax : s.maxcluster = s.contigsumsize ∨ Largest s) (readable : Bool) (bpref : Int)
    (hlen : 0 < len) (hle : (len : Int) ≤ s.contigsumsize) (hhas : HasCluster s len) :
    clusteralloc s readable bpref len ≠ .skipped ∧
      ∀ m, clusteralloc s readable bpref len ≠ .noSummary m := by
  obtain ⟨k, hlk, hkn, hpos⟩ := exists_count hn h hlen hle hhas
  have hkmax : (k : Int) ≤ s.maxcluster := by
    rcases hmax with hmax | hmax
    · rw [hmax]
      exact hkn
    by_contra hlt
    have := hmax.none_above k (by omega) hkn
    omega
  obtain ⟨-, hend, -, hbelow⟩ := sumLoop_spec s.clustersum (s.contigsumsize + 1 - len).toNat len
  have hfound : ¬sumLoop s.clustersum (s.contigsumsize + 1 - len).toNat len > s.contigsumsize := by
    intro hgt
    have := hbelow k (by omega) (by omega)
    omega
  unfold clusteralloc
  rw [if_neg (by omega)]
  split
  · exact ⟨nofun, nofun⟩
  dsimp only
  rw [if_neg hfound]
  split
  · exact ⟨nofun, nofun⟩
  · exact ⟨nofun, nofun⟩

/-! ## Runs -/

/-- A call of `ffs_clusteracct`, for runs. -/
def acct (s : Cluster) (op : Int × Int) : Option Cluster := some (clusteracct s op.1 op.2)

/-- The counts are exact, and the largest length is, or has been set to the size of
    the summary when the file system was mounted. -/
structure Consistent (s : Cluster) : Prop where
  size : 0 < s.contigsumsize
  exact_counts : Exact s
  max : s.maxcluster = s.contigsumsize ∨ Largest s

/-- From a consistent state, after any sequence of calls that each change the bit of a
    block, the counts are those of the maximal runs of free blocks, the largest length
    is the largest with a count, and no search for a cluster that the group has ends
    before it looks at the map. -/
theorem clustersum_exact (s : Cluster) (ops : List (Int × Int)) (h : Consistent s)
    (hops : EveryStep acct (fun s op => Changes s op.1 op.2) s ops) :
    ∃ s', runOps acct s ops = some s' ∧ s'.contigsumsize = s.contigsumsize ∧
      s'.nclusterblks = s.nclusterblks ∧ Exact s' ∧ (ops ≠ [] ∨ Largest s → Largest s') ∧
      ∀ (readable : Bool) (bpref : Int) (len : Nat), 0 < len → (len : Int) ≤ s.contigsumsize →
        HasCluster s' len → clusteralloc s' readable bpref len ≠ .skipped ∧
          ∀ m, clusteralloc s' readable bpref len ≠ .noSummary m := by
  induction ops generalizing s with
  | nil =>
    exact ⟨s, rfl, rfl, rfl, h.exact_counts, fun hor => hor.resolve_left (fun hne => hne rfl),
      fun readable bpref len => clusteralloc_looks h.size h.exact_counts h.max readable bpref⟩
  | cons op ops ih =>
    obtain ⟨hexact, hlargest⟩ := clusteracct_exact h.size h.exact_counts hops.1
    have hsize : (clusteracct s op.1 op.2).contigsumsize = s.contigsumsize := by
      rw [clusteracct, if_neg (by have := h.size; omega)]
    have hblks : (clusteracct s op.1 op.2).nclusterblks = s.nclusterblks := by
      rw [clusteracct, if_neg (by have := h.size; omega)]
    have h' : Consistent (clusteracct s op.1 op.2) :=
      ⟨by rw [hsize]; exact h.size, hexact, .inr hlargest⟩
    obtain ⟨s', hrun, hsize', hblks', hexact', hlargest', hlooks⟩ :=
      ih (clusteracct s op.1 op.2) h' (hops.2 _ rfl)
    rw [hsize] at hsize' hlooks
    exact ⟨s', by rw [runOps_cons]; exact hrun, hsize', hblks'.trans hblks, hexact',
      fun _ => hlargest' (.inr hlargest), hlooks⟩

instance (s : Cluster) (blkno cnt : Int) : Decidable (Changes s blkno cnt) :=
  inferInstanceAs (Decidable (_ ∧ _))

/-- A group of ten blocks in use, with counts for up to two blocks. -/
def usedGroup : Cluster :=
  { contigsumsize := 2, nclusterblks := 10, clustersfree := fun _ => 0, clustersum := fun _ => 0,
    maxcluster := 0 }

theorem clustersum_exact_row : ∃ s', runOps acct usedGroup [(7, 1), (9, 1), (8, 1), (7, -1)] =
    some s' ∧ Exact s' ∧ Largest s' ∧ (HasCluster s' 2 →
      clusteralloc s' true 0 2 ≠ .skipped ∧ ∀ m, clusteralloc s' true 0 2 ≠ .noSummary m) := by
  have hruns : usedGroup.runs = [] := by decide
  have hlargest : Largest usedGroup :=
    ⟨⟨Int.le_refl 0, by decide⟩, fun h => absurd h (by decide), fun _ _ _ => Int.le_refl 0⟩
  have h : Consistent usedGroup :=
    ⟨by decide, ⟨fun k _ _ => by rw [hruns]; rfl, by rw [hruns]; rfl⟩, .inr hlargest⟩
  obtain ⟨s', hrun, -, -, hexact, hmax, hlooks⟩ :=
    clustersum_exact usedGroup [(7, 1), (9, 1), (8, 1), (7, -1)] h (by decide)
  exact ⟨s', hrun, hexact, hmax (.inr hlargest), hlooks true 0 2 (by decide) (by decide)⟩

end FreeBSDKern.Ffs
