import FreeBSDKern.Ufs.Indir

/-!
# Numbers of Indirect Blocks

An indirect block has a place: the tree it is in, and the indices on the way from
the root. Its number is said by the comment in `ufs_bmap.c`, and `name` says it of the
place: the negative of the first data block under it, and one less for each
level below. `ufs_getlbns` reads the indices off a block number as the digits of
what is left of it, for a data block as for the number of an indirect block, and
`ffs_indirtrunc` steps from name to name. Both are therefore statements about `name`.

Two places have the same name only if they are one, and this needs three pointers
in a block: the names of the three kinds of blocks differ modulo the number of
pointers. With two, the triple indirect block and a single indirect block under it
have the same.

## Main definitions

* `preceding`: The data blocks of the smaller trees.
* `value`: The number with given digits.
* `name`: The number of an indirect block.
* `pathTo`: The path to a place.
* `Addressing`: What the numbers should be.

## Theorems

* `getlbns_data`, `getlbns_name`: `ufs_getlbns` at a data block and at a name.
* `indirtrunc_named`: `ffs_indirtrunc` reads blocks under their names.
* `indirect_addressing`: The numbers are as they should be, from three pointers on.
* `two_pointers`: Not with two.
-/

namespace FreeBSDKern.Ufs

/-- The data blocks of the trees with fewer levels. -/
def preceding (N level : Nat) : Nat := ∑ k ∈ Finset.range level, N ^ (k + 1)

/-- The number with the given digits, the highest first. -/
def value (N : Nat) (ds : List Nat) : Nat := Nat.ofDigits N ds.reverse

/-- The number of the indirect block at a place. -/
def name (N level : Nat) (ds : List Nat) : Int :=
  -(ndaddr + preceding N level + value N ds * N ^ (level + 1 - ds.length) + level - ds.length)

/-- The pairs for the indices behind a place. -/
def steps (N level : Nat) : List Nat → List Nat → List Indir
  | _, [] => []
  | ds, d :: rest => ⟨name N level ds, d⟩ :: steps N level (ds ++ [d]) rest

/-- The path to a place. -/
def pathTo (N level : Nat) (ds : List Nat) : List Indir :=
  ⟨name N level [], level⟩ :: steps N level [] ds

variable (N level d : Nat) (ds ts rest : List Nat) (lbn : Int) (bap : Nat → Nat → Nat)
  (bad : Nat → Bool)

theorem value_nil : value N [] = 0 := rfl

theorem value_concat : value N (ds ++ [d]) = value N ds * N + d := by
  unfold value
  rw [List.reverse_append, List.reverse_singleton, List.singleton_append, Nat.ofDigits_cons]
  ring

theorem value_append : value N (ds ++ rest) = value N ds * N ^ rest.length + value N rest := by
  unfold value
  rw [List.reverse_append, Nat.ofDigits_append, List.length_reverse]
  ring

theorem value_lt (hN : 1 < N) (ds : List Nat) (h : ∀ d ∈ ds, d < N) :
    value N ds < N ^ ds.length := by
  unfold value
  have := Nat.ofDigits_lt_base_pow_length hN (fun d hd => h d (List.mem_reverse.mp hd))
  rwa [List.length_reverse] at this

/-- Every number below a power has its digits. -/
theorem exists_value (hN : 0 < N) : ∀ n r, r < N ^ n →
    ∃ ds, ds.length = n ∧ (∀ d ∈ ds, d < N) ∧ value N ds = r := by
  intro n
  induction n with
  | zero =>
    intro r hr
    refine ⟨[], rfl, fun d hd => absurd hd List.not_mem_nil, ?_⟩
    rw [value_nil]
    rw [pow_zero] at hr
    omega
  | succ n ih =>
    intro r hr
    have hq : r / N < N ^ n := by
      rw [Nat.div_lt_iff_lt_mul hN]
      rwa [pow_succ] at hr
    rcases ih (r / N) hq with ⟨ds, hlen, hds, hval⟩
    refine ⟨ds ++ [r % N], ?_, ?_, ?_⟩
    · rw [List.length_append, hlen, List.length_singleton]
    · intro d hd
      rcases List.mem_append.mp hd with hd | hd
      · exact hds d hd
      · rw [List.mem_singleton.mp hd]
        exact Nat.mod_lt r hN
    · rw [value_concat, hval]
      exact Nat.div_add_mod' r N

/-- The digit that `ufs_getlbns` reads. -/
theorem digit_eq (e x : Nat) (ds rest : List Nat) (hN : 1 < N) (hd : d < N)
    (hrest : ∀ c ∈ rest, c < N) (hx : x < N ^ e) :
    (value N (ds ++ d :: rest) * N ^ e + x) / N ^ (rest.length + e) % N = d := by
  have hpos : 0 < N ^ (rest.length + e) := Nat.pow_pos (by omega)
  have hsplit : value N (ds ++ d :: rest) * N ^ e + x =
      (value N ds * N + d) * N ^ (rest.length + e) + (value N rest * N ^ e + x) := by
    have happ : ds ++ d :: rest = (ds ++ [d]) ++ rest := by simp
    rw [happ, value_append, value_concat]
    ring
  have hlow : value N rest * N ^ e + x < N ^ (rest.length + e) := by
    have hv : value N rest + 1 ≤ N ^ rest.length := value_lt N hN rest hrest
    have := Nat.mul_le_mul_right (N ^ e) hv
    rw [pow_add]
    rw [Nat.add_mul, Nat.one_mul] at this
    omega
  rw [hsplit, Nat.add_comm, Nat.add_mul_div_right _ _ hpos, Nat.div_eq_of_lt hlow, Nat.zero_add,
    Nat.add_comm, Nat.add_mul_mod_self_right]
  exact Nat.mod_eq_of_lt hd

/-- The name of the block behind a pointer. -/
theorem name_concat (h : ds.length ≤ level) :
    name N level (ds ++ [d]) = name N level ds - (-1 + d * (N : Int) ^ (level - ds.length)) := by
  unfold name
  have h1 : level + 1 - (ds ++ [d]).length = level - ds.length := by
    rw [List.length_append, List.length_singleton]
    omega
  have h2 : level + 1 - ds.length = level - ds.length + 1 := by omega
  rw [h1, h2, value_concat, List.length_append, List.length_singleton]
  push_cast
  ring

theorem name_le (h : ds.length ≤ level) : name N level ds ≤ -ndaddr := by
  unfold name
  have : (0 : Int) ≤ preceding N level + value N ds * N ^ (level + 1 - ds.length) := by
    exact_mod_cast Nat.zero_le (preceding N level + value N ds * N ^ (level + 1 - ds.length))
  omega

/-- Blocks of different kinds in one tree have different names. -/
theorem name_ne (hN : 3 ≤ N) (hlevel : level < niaddr) (hts : ts.length ≤ level)
    (h : ds.length < ts.length) : name N level ds ≠ name N level ts := by
  intro heq
  unfold name at heq
  unfold niaddr at hlevel
  have h1 : level + 1 - ds.length = level - ds.length + 1 := by omega
  have h2 : level + 1 - ts.length = level - ts.length + 1 := by omega
  rw [h1, h2, pow_succ, pow_succ] at heq
  -- Both first data blocks are multiples of the number of pointers.
  have hdvd : (N : Int) ∣ ((ts.length - ds.length : Nat) : Int) := by
    refine ⟨value N ts * N ^ (level - ts.length) - value N ds * N ^ (level - ds.length), ?_⟩
    rw [Nat.cast_sub h.le]
    linarith
  have hle := Nat.le_of_dvd (by omega) (Int.natCast_dvd_natCast.mp hdvd)
  omega

/-- The first summand is what the loop for the levels subtracts. -/
theorem sum_pow_succ (i j : Nat) : ∑ k ∈ Finset.range (i + 1), N ^ (j + k + 1) =
    N ^ (j + 1) + ∑ k ∈ Finset.range i, N ^ (j + 1 + k + 1) := by
  rw [Finset.sum_range_succ', Nat.add_comm]
  congr 1
  refine Finset.sum_congr rfl (fun k _ => ?_)
  congr 1
  omega

theorem cast_pow_mul (j : Nat) : ((N ^ j : Nat) : Int) * N = ((N ^ (j + 1) : Nat) : Int) := by
  rw [pow_succ]
  push_cast
  ring

/-- The loop for the levels stops in the tree of the block. -/
theorem levelLoop_eq (r : Nat) : ∀ level i j, level < i → r < N ^ (j + level + 1) →
    levelLoop N i ((N ^ j : Nat) : Int)
      ((∑ k ∈ Finset.range level, N ^ (j + k + 1) + r : Nat) : Int) =
      some (i - level, ((N ^ (j + level + 1) : Nat) : Int), (r : Int)) := by
  intro level
  induction level with
  | zero =>
    intro i j hi hr
    obtain ⟨i, rfl⟩ : ∃ n, i = n + 1 := ⟨i - 1, by omega⟩
    rw [levelLoop, cast_pow_mul, Finset.sum_range_zero, Nat.zero_add, if_pos (by exact_mod_cast hr)]
    rfl
  | succ level ih =>
    intro i j hi hr
    obtain ⟨i, rfl⟩ : ∃ n, i = n + 1 := ⟨i - 1, by omega⟩
    have hr' : r < N ^ (j + 1 + level + 1) := by
      have : j + 1 + level + 1 = j + (level + 1) + 1 := by omega
      rwa [this]
    have hge : ((N ^ (j + 1) : Nat) : Int) ≤
        ((N ^ (j + 1) + (∑ k ∈ Finset.range level, N ^ (j + 1 + k + 1) + r) : Nat) : Int) :=
      Int.ofNat_le.mpr (Nat.le_add_right _ _)
    rw [levelLoop, cast_pow_mul, sum_pow_succ, Nat.add_assoc, if_neg (Int.not_lt.mpr hge)]
    have hsub : ((N ^ (j + 1) + (∑ k ∈ Finset.range level, N ^ (j + 1 + k + 1) + r) : Nat) : Int)
        - ((N ^ (j + 1) : Nat) : Int) =
        ((∑ k ∈ Finset.range level, N ^ (j + 1 + k + 1) + r : Nat) : Int) := by
      push_cast
      ring
    rw [hsub, ih i (j + 1) (by omega) hr']
    have h1 : i + 1 - (level + 1) = i - level := by omega
    have h2 : j + 1 + level + 1 = j + (level + 1) + 1 := by omega
    rw [h1, h2]

theorem levelLoop_none : ∀ i j r : Nat, ∑ k ∈ Finset.range i, N ^ (j + k + 1) ≤ r →
    levelLoop N i ((N ^ j : Nat) : Int) (r : Int) = none := by
  intro i
  induction i with
  | zero =>
    intro j r _
    rfl
  | succ i ih =>
    intro j r hr
    rw [sum_pow_succ] at hr
    have hle : N ^ (j + 1) ≤ r := by omega
    rw [levelLoop, cast_pow_mul, if_neg (by omega), ← Nat.cast_sub hle]
    exact ih (j + 1) (r - N ^ (j + 1)) (by omega)

/-- The path that the loop writes down for a block at or under a place: it stops
    there if the block is the one at the place, and at the last level otherwise. -/
theorem pathLoop_eq (e x : Nat) (ts : List Nat) (realbn : Int) (hN : 1 < N) (hts : ∀ d ∈ ts, d < N)
    (hlen : ts.length + e = level + 1) (hx : x < N ^ e)
    (hne : ∀ ds rest, ts = ds ++ rest → rest ≠ [] → name N level ds ≠ realbn)
    (hend : e = 0 ∨ name N level ts = realbn) : ∀ rest ds, ts = ds ++ rest →
    pathLoop N realbn ((value N ts * N ^ e + x : Nat) : Int) (rest.length + e) (name N level ds)
      ((N ^ (rest.length + e) : Nat) : Int) = steps N level ds rest := by
  intro rest
  induction rest with
  | nil =>
    intro ds hds
    rw [List.append_nil] at hds
    subst hds
    rcases hend with rfl | hend
    · rfl
    cases e with
    | zero => rfl
    | succ e => exact if_pos hend
  | cons d rest ih =>
    intro ds hds
    have hidx : (d :: rest).length + e = rest.length + e + 1 := by
      rw [List.length_cons]
      omega
    have hlevel : level - ds.length = rest.length + e := by
      rw [hds, List.length_append, List.length_cons] at hlen
      omega
    have hdlen : ds.length ≤ level := by
      rw [hds, List.length_append, List.length_cons] at hlen
      omega
    rw [hidx, pathLoop, if_neg (hne ds (d :: rest) hds (List.cons_ne_nil _ _)), steps]
    -- The next block count, the digit, and the name behind it.
    have hcnt : ((N ^ (rest.length + e + 1) : Nat) : Int) / N =
        ((N ^ (rest.length + e) : Nat) : Int) := by
      rw [← cast_pow_mul]
      exact Int.mul_ediv_cancel _ (by omega)
    have hoff : ((value N ts * N ^ e + x : Nat) : Int) / ((N ^ (rest.length + e) : Nat) : Int) %
        N = d := by
      have hdig := digit_eq N d e x ds rest hN
        (hts d (by rw [hds]; exact List.mem_append_cons_self))
        (fun c hc => hts c (by
          rw [hds]; exact List.mem_append_right _ (List.mem_cons_of_mem _ hc))) hx
      rw [← hds] at hdig
      exact_mod_cast hdig
    have hname : name N level ds - (-1 + d * ((N ^ (rest.length + e) : Nat) : Int)) =
        name N level (ds ++ [d]) := by
      rw [name_concat N level d ds hdlen, hlevel]
      push_cast
      ring
    simp only [hcnt, hoff, hname]
    rw [ih (ds ++ [d]) (by rw [hds, List.append_assoc, List.singleton_append])]

/-- `ufs_getlbns` at a number whose absolute value lies in a tree, up to the loop. -/
theorem getlbns_eq (r : Nat) (realbn : Int) (hlevel : level < niaddr) (hr : r < N ^ (level + 1))
    (habs : (if realbn < 0 then -realbn else realbn) = ((ndaddr + preceding N level + r : Nat) : Int))
    : getlbns N realbn = .ok (⟨name N level [], level⟩ ::
      pathLoop N realbn r (level + 1) (name N level []) ((N ^ (level + 1) : Nat) : Int)) := by
  have hloop := levelLoop_eq N r level niaddr 0 hlevel (by rwa [Nat.zero_add])
  simp only [Nat.zero_add, pow_zero, Nat.cast_one] at hloop
  have hsub : ((ndaddr + preceding N level + r : Nat) : Int) - ndaddr =
      ((∑ k ∈ Finset.range level, N ^ (k + 1) + r : Nat) : Int) := by
    unfold preceding
    push_cast
    ring
  have hroot : name N level [] = -(ndaddr + preceding N level + level : Int) := by
    unfold name
    rw [value_nil, List.length_nil]
    push_cast
    ring
  have hi : ((niaddr : Int) - ((niaddr - level : Nat) : Int)) = level := by
    unfold niaddr at hlevel ⊢
    omega
  have hk : niaddr + 1 - (niaddr - level) = level + 1 := by
    unfold niaddr at hlevel ⊢
    omega
  have hmeta : (if 0 ≤ realbn then -(realbn - r + niaddr - ((niaddr - level : Nat) : Int))
      else -(-realbn - r + niaddr - ((niaddr - level : Nat) : Int))) = name N level [] := by
    rw [hroot]
    split
    case isTrue h =>
      rw [if_neg (by omega)] at habs
      push_cast at habs
      omega
    case isFalse h =>
      rw [if_pos (by omega)] at habs
      push_cast at habs
      omega
  unfold getlbns
  simp only [habs, hsub, hloop]
  rw [if_neg (by push_cast; omega)]
  simp only [hmeta, hi, hk]

/-- The path to a data block. -/
theorem getlbns_data (hN : 1 < N) (hlevel : level < niaddr) (hlen : ts.length = level + 1)
    (hts : ∀ d ∈ ts, d < N) : getlbns N ((ndaddr + preceding N level + value N ts : Nat) : Int) =
      .ok (pathTo N level ts) := by
  have hr : value N ts < N ^ (level + 1) := hlen ▸ value_lt N hN ts hts
  rw [getlbns_eq N level (value N ts) _ hlevel hr (if_neg (by omega))]
  have hloop := pathLoop_eq N level 0 0 ts ((ndaddr + preceding N level + value N ts : Nat) : Int)
    hN hts hlen (by rw [pow_zero]; exact Nat.one_pos) ?_ (Or.inl rfl) ts [] rfl
  · rw [pow_zero, Nat.mul_one, Nat.add_zero, Nat.add_zero, hlen] at hloop
    rw [hloop]
    rfl
  -- A name is negative.
  intro ds rest hds hrest heq
  have hdlen : ds.length ≤ level := by
    have := List.length_pos_of_ne_nil hrest
    rw [hds, List.length_append] at hlen
    omega
  have := name_le N level ds hdlen
  unfold ndaddr at this heq
  omega

/-- The path to an indirect block, from its name. -/
theorem getlbns_name (hN : 3 ≤ N) (hlevel : level < niaddr) (hlen : ts.length ≤ level)
    (hts : ∀ d ∈ ts, d < N) : getlbns N (name N level ts) = .ok (pathTo N level ts) := by
  have hx : level - ts.length < N ^ (level + 1 - ts.length) := by
    have := Nat.lt_pow_self (n := level + 1 - ts.length) (show 1 < N by omega)
    omega
  have hname : name N level ts = -((ndaddr + preceding N level +
      (value N ts * N ^ (level + 1 - ts.length) + (level - ts.length)) : Nat) : Int) := by
    unfold name
    push_cast [Nat.cast_sub hlen]
    ring
  have hr : value N ts * N ^ (level + 1 - ts.length) + (level - ts.length) < N ^ (level + 1) := by
    have hv : value N ts + 1 ≤ N ^ ts.length := value_lt N (by omega) ts hts
    have hmul := Nat.mul_le_mul_right (N ^ (level + 1 - ts.length)) hv
    rw [← pow_add, Nat.add_mul, Nat.one_mul,
      show ts.length + (level + 1 - ts.length) = level + 1 by omega] at hmul
    omega
  have hle := name_le N level ts hlen
  unfold ndaddr at hle
  rw [getlbns_eq N level _ _ hlevel hr (by rw [if_pos (by omega), hname, neg_neg])]
  have hloop := pathLoop_eq N level (level + 1 - ts.length) (level - ts.length) ts
    (name N level ts) (by omega) hts (by omega) hx ?_ (Or.inr rfl) ts [] rfl
  · rw [show ts.length + (level + 1 - ts.length) = level + 1 by omega] at hloop
    rw [hloop]
    rfl
  intro ds rest hds hrest
  refine name_ne N level ds ts hN hlevel hlen ?_
  have := List.length_pos_of_ne_nil hrest
  rw [hds, List.length_append]
  omega

theorem steps_get : ∀ ds k e,
    (steps N level ds rest)[k]? = some e → ∃ pre d post, rest = pre ++ d :: post ∧
      pre.length = k ∧ e.lbn = name N level (ds ++ pre) ∧
      (steps N level ds rest).take k = steps N level ds pre := by
  induction rest with
  | nil =>
    intro ds k e h
    exact absurd h (by simp [steps])
  | cons d rest ih =>
    intro ds k e h
    rw [steps] at h ⊢
    cases k with
    | zero =>
      rw [List.getElem?_cons_zero, Option.some.injEq] at h
      subst h
      exact ⟨[], d, rest, rfl, rfl, by rw [List.append_nil], rfl⟩
    | succ k =>
      rw [List.getElem?_cons_succ] at h
      rcases ih (ds ++ [d]) k e h with ⟨pre, c, post, rfl, rfl, hlbn, htake⟩
      refine ⟨d :: pre, c, post, rfl, rfl, ?_, ?_⟩
      · rw [hlbn, List.append_assoc, List.singleton_append]
      · rw [List.take_succ_cons, htake]
        rfl

/-- The number at an index of a path, and the path up to it. -/
theorem pathTo_get (k : Nat) (ts : List Nat) (e : Indir) (h : (pathTo N level ts)[k]? = some e) :
    ∃ pre post, ts = pre ++ post ∧ pre.length ≤ ts.length - 1 ∧ e.lbn = name N level pre ∧
      (pathTo N level ts).take (max k 1) = pathTo N level pre := by
  unfold pathTo at h ⊢
  cases k with
  | zero =>
    rw [List.getElem?_cons_zero, Option.some.injEq] at h
    subst h
    exact ⟨[], ts, rfl, zero_le, rfl, rfl⟩
  | succ k =>
    rw [List.getElem?_cons_succ] at h
    rcases steps_get N level ts [] k e h with ⟨pre, d, post, rfl, rfl, hlbn, htake⟩
    refine ⟨pre, d :: post, rfl, ?_, hlbn, ?_⟩
    · rw [List.length_append, List.length_cons]
      omega
    · rw [Nat.max_eq_left (by omega), List.take_succ_cons, htake]

theorem steps_off : ∀ ds, (steps N level ds rest).map Indir.off = rest.map Nat.cast := by
  induction rest with
  | nil => intro ds; rfl
  | cons d rest ih =>
    intro ds
    rw [steps, List.map_cons, List.map_cons, ih]

theorem pathTo_off : (pathTo N level ds).map Indir.off = (level :: ds).map Nat.cast := by
  unfold pathTo
  rw [List.map_cons, List.map_cons, steps_off]

/-- The offsets of a path tell the place. -/
theorem pathTo_off_inj {N level level' : Nat} {ds ds' : List Nat}
    (h : (pathTo N level ds).map Indir.off = (pathTo N level' ds').map Indir.off) :
    level = level' ∧ ds = ds' := by
  rw [pathTo_off, pathTo_off] at h
  have := List.map_injective_iff.mpr (fun (a b : Nat) (hab : (a : Int) = b) => Int.ofNat.inj hab) h
  exact ⟨(List.cons.inj this).1, (List.cons.inj this).2⟩

/-- Every data block of a file that is not direct is in one of the trees. -/
theorem exists_place (hN : 0 < N) (h0 : ndaddr ≤ lbn) (h1 : lbn < ndaddr + preceding N niaddr) :
    ∃ level ts, level < niaddr ∧ ts.length = level + 1 ∧ (∀ d ∈ ts, d < N) ∧
      lbn = ((ndaddr + preceding N level + value N ts : Nat) : Int) := by
  obtain ⟨n, rfl⟩ : ∃ n : Nat, lbn = ndaddr + n := ⟨(lbn - ndaddr).toNat, by omega⟩
  have hn : n < preceding N niaddr := by omega
  -- The first tree that the block is not behind.
  have hex : ∃ level, n < preceding N (level + 1) := ⟨2, hn⟩
  have hfind := Nat.find_spec hex
  have hmin : preceding N (Nat.find hex) ≤ n := by
    rcases Nat.eq_zero_or_pos (Nat.find hex) with hz | hpos
    · rw [hz]
      exact Nat.zero_le n
    have := Nat.find_min hex (Nat.sub_one_lt_of_lt hpos)
    rw [Nat.sub_add_cancel hpos] at this
    omega
  have hlevel : Nat.find hex < niaddr := lt_of_le_of_lt (Nat.find_min' hex hn) (by decide)
  have hr : n - preceding N (Nat.find hex) < N ^ (Nat.find hex + 1) := by
    unfold preceding at hfind hmin ⊢
    rw [Finset.sum_range_succ] at hfind
    omega
  rcases exists_value N hN _ _ hr with ⟨ts, hlen, hts, hval⟩
  refine ⟨Nat.find hex, ts, hlevel, hlen, hts, ?_⟩
  rw [hval]
  omega

theorem getlbns_efbig (h : ndaddr + preceding N niaddr ≤ lbn) : getlbns N lbn = .error .efbig := by
  obtain ⟨n, rfl⟩ : ∃ n : Nat, lbn = ndaddr + n := ⟨(lbn - ndaddr).toNat, by omega⟩
  have hn : preceding N niaddr ≤ n := by omega
  have hloop := levelLoop_none N niaddr 0 n (by
    unfold preceding at hn
    simpa only [Nat.zero_add] using hn)
  simp only [pow_zero, Nat.cast_one] at hloop
  have hpos : ¬ (ndaddr : Int) + n < 0 := by omega
  have hlarge : ¬ (ndaddr : Int) + n < ndaddr := by omega
  unfold getlbns
  simp only [if_neg hpos, if_neg hlarge, add_sub_cancel_left, hloop]

theorem lbnOffset_eq : lbnOffset N level = (N : Int) ^ level := by
  induction level with
  | zero => rfl
  | succ level ih => rw [lbnOffset, ih, pow_succ]

/-- The loop of `ffs_indirtrunc` calls for the block behind each pointer with one
    number, and ends with the number for the pointer it stopped at. -/
theorem freeLoop_spec (bap : Nat → Nat) (factor last lbn : Int)
    (child : Int → Nat → List Event) : ∀ c : Nat, (∀ l b, Event.getblk l b ∈
        (freeLoop bap factor last child c (lbn + 1 - ((c : Int) - 1) * factor)).1 →
      ∃ i < c, Event.getblk l b ∈ child (lbn + 1 - i * factor) (bap i)) ∧
    ∃ c' ≤ c, (freeLoop bap factor last child c (lbn + 1 - ((c : Int) - 1) * factor)).2 =
      (c', lbn + 1 - ((c' : Int) - 1) * factor) := by
  intro c
  induction c with
  | zero =>
    refine ⟨fun l b h => absurd h List.not_mem_nil, 0, Nat.le_refl 0, rfl⟩
  | succ i ih =>
    have hnext : lbn + 1 - (((i + 1 : Nat) : Int) - 1) * factor + factor =
        lbn + 1 - ((i : Int) - 1) * factor := by
      push_cast
      ring
    have hhere : lbn + 1 - (((i + 1 : Nat) : Int) - 1) * factor = lbn + 1 - i * factor := by
      push_cast
      ring
    rw [freeLoop]
    split
    case isTrue hlast =>
      rw [hnext]
      rcases ih with ⟨hev, c', hc', hend⟩
      refine ⟨fun l b h => ?_, c', by omega, hend⟩
      have hcases : Event.getblk l b ∈ child (lbn + 1 - i * factor) (bap i) ∨ Event.getblk l b ∈
            (freeLoop bap factor last child i (lbn + 1 - ((i : Int) - 1) * factor)).1 := by
        simp only [hhere] at h
        split at h
        case isTrue hz => exact Or.inr h
        case isFalse hz =>
          rcases List.mem_append.mp h with h | h
          · exact Or.inl h
          · exact Or.inr ((List.mem_cons.mp h).resolve_left (by simp))
      rcases hcases with h | h
      · exact ⟨i, Nat.lt_succ_self i, h⟩
      · rcases hev l b h with ⟨j, hj, hchild⟩
        exact ⟨j, by omega, hchild⟩
    case isFalse hlast =>
      exact ⟨fun l b h => absurd h List.not_mem_nil, i + 1, le_rfl, rfl⟩

theorem indirtruncBody_getblk (factor lbn lastbn : Int) (child : Int → Nat → Int → List Event)
    (dbn : Nat) (l : Int) (b : Nat)
    (h : .getblk l b ∈ indirtruncBody N bap bad factor child lbn dbn lastbn) : (l = lbn ∧ b = dbn) ∨
      ∃ i < N, ∃ last, .getblk l b ∈ child (lbn + 1 - i * factor) (bap dbn i) last := by
  unfold indirtruncBody at h
  simp only at h
  split at h
  case isTrue =>
    rw [List.mem_singleton, Event.getblk.injEq] at h
    exact Or.inl h
  case isFalse =>
  rcases freeLoop_spec (bap dbn) factor (if 0 < lastbn then lastbn / factor else lastbn) lbn
    (fun nlbn nb => child nlbn nb (-1)) N with ⟨hev, c', hc', hend⟩
  rw [List.mem_cons, Event.getblk.injEq, List.mem_append] at h
  rcases h with h | h | h
  · exact Or.inl h
  · rcases hev l b h with ⟨i, hi, hchild⟩
    exact Or.inr ⟨i, hi, -1, hchild⟩
  -- The partial block is the one that the loop stopped at.
  rw [hend] at h
  right
  cases c' with
  | zero => exact absurd h List.not_mem_nil
  | succ i =>
    simp only at h
    split at h
    case isTrue hpart =>
      refine ⟨i, hc', lastbn % factor, ?_⟩
      have : lbn + 1 - (((i + 1 : Nat) : Int) - 1) * factor = lbn + 1 - i * factor := by
        push_cast
        ring
      rwa [this] at h
    case isFalse => exact absurd h List.not_mem_nil

theorem indirtrunc_named : ∀ (h level : Nat)
    (ds : List Nat) (dbn : Nat) (lastbn l : Int) (b : Nat), level = ds.length + h →
    .getblk l b ∈ indirtrunc N bap bad h (name N level ds) dbn lastbn →
      ∃ rest, (∀ d ∈ rest, d < N) ∧ rest.length ≤ h ∧ l = name N level (ds ++ rest) ∧
        b = rest.foldl bap dbn := by
  intro h
  induction h with
  | zero =>
    intro level ds dbn lastbn l b hlevel hev
    rcases indirtruncBody_getblk _ _ _ _ _ _ _ _ _ _ hev with ⟨rfl, rfl⟩ | ⟨i, _, _, hchild⟩
    · exact ⟨[], fun d hd => absurd hd List.not_mem_nil, Nat.le_refl 0,
        by rw [List.append_nil], rfl⟩
    · exact absurd hchild List.not_mem_nil
  | succ h ih =>
    intro level ds dbn lastbn l b hlevel hev
    rcases indirtruncBody_getblk _ _ _ _ _ _ _ _ _ _ hev with ⟨rfl, rfl⟩ | ⟨i, hi, last, hchild⟩
    · exact ⟨[], fun d hd => absurd hd List.not_mem_nil, zero_le,
        by rw [List.append_nil], rfl⟩
    have hname : name N level ds + 1 - i * lbnOffset N (h + 1) = name N level (ds ++ [i]) := by
      rw [name_concat N level i ds (by omega), lbnOffset_eq,
        show level - ds.length = h + 1 by omega]
      ring
    rw [hname] at hchild
    have hlen : level = (ds ++ [i]).length + h := by
      rw [List.length_append, List.length_singleton]
      omega
    rcases ih level (ds ++ [i]) (bap dbn i) last l b hlen hchild with
      ⟨rest, hrest, hle, hl, hb⟩
    refine ⟨i :: rest, ?_, ?_, ?_, hb⟩
    · intro d hd
      rcases List.mem_cons.mp hd with rfl | hd
      · exact hi
      · exact hrest d hd
    · rw [List.length_cons]
      omega
    · rw [hl, List.append_assoc, List.singleton_append]

/-- `ffs_truncate` starts at the names of the three roots. -/
theorem indirLbn_eq (h : level < niaddr) : indirLbn N level = name N level [] := by
  unfold niaddr at h
  unfold name indirLbn preceding
  rw [value_nil]
  interval_cases level
  · simp
  · simp
    ring
  · simp [Finset.sum_range_succ]
    ring

theorem resolve_pathTo (ib : Nat → Nat) (bap : Nat → Nat → Nat) (N level : Nat) (ts : List Nat) :
    resolve ib bap (pathTo N level ts) = ts.foldl bap (ib level) := by
  have hsteps : ∀ (rest ds : List Nat) (dbn : Nat),
      (steps N level ds rest).foldl (fun dbn e => bap dbn e.off.toNat) dbn =
        rest.foldl bap dbn := by
    intro rest
    induction rest with
    | nil => intro ds dbn; rfl
    | cons d rest ih =>
      intro ds dbn
      rw [steps, List.foldl_cons, List.foldl_cons, ih]
      rfl
  exact hsteps ts [] (ib level)

/-- The blocks that `ffs_truncate` reads, under the names they have in the file. -/
theorem truncLevels_named (ib : Nat → Nat) (bap : Nat → Nat → Nat) (bad : Nat → Bool)
    (lastblock l : Int) (b : Nat) (levels : List Nat) (hlevels : ∀ k ∈ levels, k < niaddr)
    (h : .getblk l b ∈ truncLevels N ib bap bad lastblock levels) :
    ∃ level ts, level < niaddr ∧ ts.length ≤ level ∧ (∀ d ∈ ts, d < N) ∧
      l = name N level ts ∧ b = ts.foldl bap (ib level) := by
  induction levels with
  | nil => exact absurd h List.not_mem_nil
  | cons level levels ih =>
    have hlevel := hlevels level List.mem_cons_self
    rw [truncLevels, List.mem_append] at h
    rcases h with h | h
    · split at h
      case isTrue => exact absurd h List.not_mem_nil
      case isFalse =>
      rw [List.mem_append] at h
      rcases h with h | h
      · rw [indirLbn_eq N level hlevel] at h
        rcases indirtrunc_named N bap bad level level [] (ib level) _ l b
          (by rw [List.length_nil, Nat.zero_add]) h with ⟨ts, hts, hlen, hl, hb⟩
        exact ⟨level, ts, hlevel, hlen, hts, hl, hb⟩
      split at h
      case isTrue => exact absurd (List.mem_singleton.mp h) (by simp)
      case isFalse => exact absurd h List.not_mem_nil
    split at h
    case isTrue => exact absurd h List.not_mem_nil
    case isFalse => exact ih (fun k hk => hlevels k (List.mem_cons_of_mem _ hk)) h

/-- What the numbers of indirect blocks should be, for blocks of `N` pointers. -/
structure Addressing (N : Nat) : Prop where
  /-- The path to a data block: the offsets are its tree and its digits, and the
      numbers are those of indirect blocks. -/
  path : ∀ lbn : Int, ndaddr ≤ lbn → lbn < ndaddr + preceding N niaddr →
    ∃ path level offs, getlbns N lbn = .ok path ∧ (∀ e ∈ path, e.lbn < -((ndaddr : Int) - 1)) ∧
      path.map Indir.off = (level :: offs).map Nat.cast ∧
      level < niaddr ∧ offs.length = level + 1 ∧ (∀ d ∈ offs, d < N) ∧
      lbn = ((ndaddr + preceding N level + Nat.ofDigits N offs.reverse : Nat) : Int)
  /-- The path to an indirect block on a path, from its number. -/
  prefixes : ∀ (lbn : Int) (path : List Indir) (k : Nat) (e : Indir), 0 ≤ lbn →
    getlbns N lbn = .ok path → path[k]? = some e → getlbns N e.lbn = .ok (path.take (max k 1))
  /-- Two indirect blocks on any two paths have the same number only if they are
      the same, that is if they are found by the same offsets. -/
  distinct : ∀ (lbn lbn' : Int) (path path' : List Indir) (k k' : Nat) (e e' : Indir),
    0 ≤ lbn → 0 ≤ lbn' → getlbns N lbn = .ok path → getlbns N lbn' = .ok path' →
    path[k]? = some e → path'[k']? = some e' → (e.lbn = e'.lbn ↔
      (path.take (max k 1)).map Indir.off = (path'.take (max k' 1)).map Indir.off)
  direct : ∀ lbn : Int, 0 ≤ lbn → lbn < ndaddr → getlbns N lbn = .ok []
  efbig : ∀ lbn : Int, ndaddr + preceding N niaddr ≤ lbn → getlbns N lbn = .error .efbig
  /-- A truncation reads each block under the number whose path leads to it. -/
  truncate : ∀ (ib : Nat → Nat) (bap : Nat → Nat → Nat) (bad : Nat → Bool) (lastblock l : Int)
    (b : Nat), .getblk l b ∈ truncate N ib bap bad lastblock →
      ∃ path, getlbns N l = .ok path ∧ path ≠ [] ∧ resolve ib bap path = b

theorem getlbns_direct (h0 : 0 ≤ lbn) (h : lbn < ndaddr) : getlbns N lbn = .ok [] := by
  have hneg : ¬ lbn < 0 := by omega
  unfold getlbns
  simp only [if_neg hneg, if_pos h]

/-- What stands on the path of a data block. -/
theorem path_get (k : Nat) (lbn : Int) (path : List Indir) (e : Indir) (hN : 1 < N) (h0 : 0 ≤ lbn)
    (hpath : getlbns N lbn = .ok path) (he : path[k]? = some e) :
    ∃ level ds, level < niaddr ∧ ds.length ≤ level ∧ (∀ d ∈ ds, d < N) ∧
      e.lbn = name N level ds ∧ path.take (max k 1) = pathTo N level ds := by
  by_cases hdir : lbn < ndaddr
  · rw [getlbns_direct N lbn h0 hdir, Except.ok.injEq] at hpath
    rw [← hpath] at he
    cases he
  by_cases hbig : ndaddr + preceding N niaddr ≤ lbn
  · rw [getlbns_efbig N lbn hbig] at hpath
    cases hpath
  rcases exists_place N lbn (by omega) (by omega) (by omega) with
    ⟨level, ts, hlevel, hlen, hts, rfl⟩
  rw [getlbns_data N level ts hN hlevel hlen hts, Except.ok.injEq] at hpath
  rw [← hpath] at he ⊢
  rcases pathTo_get N level k ts e he with ⟨pre, post, hpre, hle, hlbn, htake⟩
  refine ⟨level, pre, hlevel, by omega, fun d hd => hts d ?_, hlbn, htake⟩
  rw [hpre]
  exact List.mem_append_left _ hd

/-- With three pointers in a block or more, the numbers are as they should be. -/
theorem indirect_addressing (N : Nat) (hN : 3 ≤ N) : Addressing N where
  path := by
    intro lbn h0 h1
    rcases exists_place N lbn (by omega) h0 h1 with ⟨level, ts, hlevel, hlen, hts, rfl⟩
    have hpath := getlbns_data N level ts (by omega) hlevel hlen hts
    refine ⟨_, level, ts, hpath, ?_, pathTo_off N level ts, hlevel, hlen, hts, rfl⟩
    intro e he
    rcases List.mem_iff_getElem?.mp he with ⟨k, hk⟩
    rcases pathTo_get N level k ts e hk with ⟨pre, post, -, hle, hlbn, -⟩
    have := name_le N level pre (by omega)
    rw [hlbn]
    omega
  prefixes := by
    intro lbn path k e h0 hpath he
    rcases path_get N k lbn path e (by omega) h0 hpath he with
      ⟨level, ds, hlevel, hlen, hds, hlbn, htake⟩
    rw [hlbn, htake]
    exact getlbns_name N level ds hN hlevel hlen hds
  distinct := by
    intro lbn lbn' path path' k k' e e' h0 h0' hpath hpath' he he'
    rcases path_get N k lbn path e (by omega) h0 hpath he with
      ⟨level, ds, hlevel, hlen, hds, hlbn, htake⟩
    rcases path_get N k' lbn' path' e' (by omega) h0' hpath' he' with
      ⟨level', ds', hlevel', hlen', hds', hlbn', htake'⟩
    rw [hlbn, hlbn', htake, htake']
    constructor
    · intro heq
      have h1 := getlbns_name N level ds hN hlevel hlen hds
      rw [heq, getlbns_name N level' ds' hN hlevel' hlen' hds', Except.ok.injEq] at h1
      rw [h1]
    intro heq
    rcases pathTo_off_inj heq with ⟨rfl, rfl⟩
    rfl
  direct := getlbns_direct N
  efbig := getlbns_efbig N
  truncate := by
    intro ib bap bad lastblock l b h
    rcases truncLevels_named N ib bap bad lastblock l b [2, 1, 0] (by decide) h with
      ⟨level, ts, hlevel, hlen, hts, hl, hb⟩
    refine ⟨pathTo N level ts, ?_, List.cons_ne_nil _ _, ?_⟩
    · rw [hl]
      exact getlbns_name N level ts hN hlevel hlen hts
    · rw [resolve_pathTo, hb]

theorem indirect_addressing_large : 3 ≤ 512 ∧ Addressing 512 :=
  ⟨by decide, indirect_addressing 512 (by decide)⟩

/-- With two pointers, the triple indirect block has the number of a single
    indirect block under it. -/
theorem two_pointers : ¬ ∀ N, 2 ≤ N → Addressing N := by
  intro h
  have hsame := (h 2 le_rfl).distinct 20 20
    [⟨-20, 2⟩, ⟨-20, 0⟩, ⟨-19, 1⟩, ⟨-20, 0⟩] [⟨-20, 2⟩, ⟨-20, 0⟩, ⟨-19, 1⟩, ⟨-20, 0⟩] 1 3
    ⟨-20, 0⟩ ⟨-20, 0⟩ (by decide) (by decide) rfl rfl rfl rfl
  exact absurd (hsame.mp rfl) (by decide)

end FreeBSDKern.Ufs
