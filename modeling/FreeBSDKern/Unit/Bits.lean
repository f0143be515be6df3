import FreeBSDKern.Unit.Header

/-!
# What an Element List Stands For

A list of elements stands for a string of bits, one for every number, set where
the number is allocated. Gathering elements into a bitmap must not change the
string, and this file proves that `optimize_unr` does not.

`ListOk` is what the list looks like between operations: no element is empty, a
bitmap fits its memory, knows its own population and is really mixed, and two
runs of one kind never touch. The last condition is what makes a bitmap that
was started from a run mixed from its first absorption on, since the element
behind the run holds a bit of the other kind.

## Main definitions

* `bits`: The string an element list stands for.
* `ListOk`: The invariant of the list between operations.

## Theorems

* `mapBits_absorb`: Absorbing an element appends its bits.
* `absorbRest_spec`: The bitmap ends up with the bits of all it absorbed.
* `optimizeUnr_spec`: One gathering keeps the string and the invariant.
* `optimizeLoop_done`: The fuel of the loop suffices.
-/

namespace FreeBSDKern.Unit

open Function

/-- The first `n` bits of a bitmap. -/
def mapBits (map : Nat → Bool) (n : Nat) : List Bool := (List.range n).map map

/-- The bits of one element. -/
def elemBits (up : Unr) : List Bool :=
  match up.ptr with
  | .null => List.replicate up.len false
  | .uh => List.replicate up.len true
  | .bitmap ub => mapBits ub.map up.len

/-- The string an element list stands for. -/
def bits (l : List Unr) : List Bool := l.flatMap elemBits

/-- A bitmap knows its population, fits its memory and is mixed. -/
def MapOk (len : Nat) (ub : Unrb) : Prop :=
  len ≤ nbits ∧ ub.busy = (mapBits ub.map len).count true ∧ 0 < ub.busy ∧ ub.busy < len

def ElemOk (up : Unr) : Prop :=
  0 < up.len ∧ ∀ ub, up.ptr = .bitmap ub → MapOk up.len ub

/-- The list between operations: sound elements, and no two runs of one kind
    next to each other. -/
structure ListOk (l : List Unr) : Prop where
  elems : ∀ up ∈ l, ElemOk up
  chain : l.IsChain (fun a b => samePtr a b = false)

@[simp] theorem bits_nil : bits [] = [] := rfl

@[simp] theorem bits_cons (up : Unr) (l : List Unr) : bits (up :: l) = elemBits up ++ bits l := rfl

@[simp] theorem bits_append (l m : List Unr) : bits (l ++ m) = bits l ++ bits m :=
  List.flatMap_append

@[simp] theorem mapBits_length (map : Nat → Bool) (n : Nat) : (mapBits map n).length = n := by
  rw [mapBits, List.length_map, List.length_range]

@[simp] theorem elemBits_length (up : Unr) : (elemBits up).length = up.len := by
  rcases up with ⟨len, ptr⟩
  cases ptr with
  | null | uh => exact List.length_replicate
  | bitmap ub => exact mapBits_length ub.map len

theorem mapBits_congr (f g : Nat → Bool) (n : Nat) (h : ∀ i, i < n → f i = g i) :
    mapBits f n = mapBits g n := by
  refine List.map_congr_left (fun i hi => h i (List.mem_range.mp hi))

/-- A bitmap read in two parts. -/
theorem mapBits_add (f : Nat → Bool) (m n : Nat) :
    mapBits f (m + n) = mapBits f m ++ mapBits (fun i => f (m + i)) n := by
  rw [mapBits, List.range_add, List.map_append, List.map_map]
  rfl

theorem mapBits_const (b : Bool) (n : Nat) : mapBits (fun _ => b) n = List.replicate n b := by
  rw [mapBits, List.map_const', List.length_range]

/-- Changing one bit of a bitmap. -/
theorem mapBits_update (f : Nat → Bool) (n j : Nat) (b : Bool) :
    mapBits (update f j b) n = (mapBits f n).set j b := by
  refine List.ext_getElem (by simp only [mapBits_length, List.length_set]) (fun i hi hi' => ?_)
  simp only [mapBits, List.getElem_map, List.getElem_range, List.getElem_set, update_apply, eq_comm]

/-- The bits written over a range, with those below it kept. -/
theorem mapBits_write (f g : Nat → Bool) (len n : Nat)
    (hlow : ∀ i, i < len → g i = f i) :
    mapBits g (len + n) = mapBits f len ++ mapBits (fun i => g (len + i)) n := by
  rw [mapBits_add, mapBits_congr g f len hlow]

theorem mapBits_bitNclear (f : Nat → Bool) (len n : Nat) (hn : 0 < n) :
    mapBits (bitNclear f len (len + n - 1)) (len + n) = mapBits f len ++ List.replicate n false := by
  rw [mapBits_write f (bitNclear f len (len + n - 1)) len n (fun i hi => if_neg (by omega)),
    ← mapBits_const]
  congr 1
  exact mapBits_congr _ _ n (fun i hi => if_pos (by omega))

theorem mapBits_bitNset (f : Nat → Bool) (len n : Nat) (hn : 0 < n) :
    mapBits (bitNset f len (len + n - 1)) (len + n) = mapBits f len ++ List.replicate n true := by
  rw [mapBits_write f (bitNset f len (len + n - 1)) len n (fun i hi => if_neg (by omega)),
    ← mapBits_const]
  congr 1
  exact mapBits_congr _ _ n (fun i hi => if_pos (by omega))

/-- Copying bits behind the first `a`, which stay as they are. -/
theorem copyBits_spec (src : Nat → Bool) (len a : Nat) (ub : Unrb) :
    (copyBits src len a ub).busy = ub.busy + (mapBits src len).count true ∧
      ∀ i, (copyBits src len a ub).map i =
        if a ≤ i ∧ i < a + len then src (i - a) else ub.map i := by
  induction len with
  | zero =>
    refine ⟨rfl, fun i => ?_⟩
    rw [if_neg (by omega)]
    rfl
  | succ len ih =>
    rcases ih with ⟨hbusy, hmap⟩
    have hstep : copyBits src (len + 1) a ub =
        ⟨(copyBits src len a ub).busy + (src len).toNat,
          update (copyBits src len a ub).map (a + len) (src len)⟩ := by
      simp only [copyBits, List.range_succ, List.foldl_append, List.foldl_cons, List.foldl_nil]
      cases src len with
      | true | false => rfl
    have hcount : (mapBits src (len + 1)).count true
        = (mapBits src len).count true + (src len).toNat := by
      rw [mapBits, List.range_succ, List.map_append, List.count_append, mapBits, List.map_singleton]
      cases src len with
      | true | false => rfl
    rw [hstep, hcount]
    refine ⟨by simp only [hbusy]; omega, fun i => ?_⟩
    simp only [update_apply, hmap]
    by_cases hi : i = a + len
    · rw [if_pos hi, if_pos (by omega), show i - a = len by omega]
    rw [if_neg hi]
    by_cases hin : a ≤ i ∧ i < a + len
    · rw [if_pos hin, if_pos (by omega)]
    · rw [if_neg hin, if_neg (by omega)]

theorem mapBits_absorb (ub : Unrb) (len : Nat) (uf : Unr) (huf : 0 < uf.len) :
    mapBits (absorb ub len uf).map (len + uf.len) = mapBits ub.map len ++ elemBits uf := by
  rcases uf with ⟨n, ptr⟩
  cases ptr with
  | null => exact mapBits_bitNclear ub.map len n huf
  | uh => exact mapBits_bitNset ub.map len n huf
  | bitmap ubf =>
    have hmap := (copyBits_spec ubf.map n len ub).2
    change mapBits (copyBits ubf.map n len ub).map (len + n) = _
    rw [mapBits_write ub.map _ len n (fun i hi => by rw [hmap, if_neg (by omega)])]
    congr 1
    refine mapBits_congr _ _ n (fun i hi => ?_)
    rw [hmap, if_pos (by omega), Nat.add_sub_cancel_left]

/-- Absorbing an element adds its population. -/
theorem absorb_busy (ub : Unrb) (len : Nat) (uf : Unr) :
    (absorb ub len uf).busy = ub.busy + (elemBits uf).count true := by
  rcases uf with ⟨n, ptr⟩
  cases ptr with
  | null =>
    change ub.busy = ub.busy + (List.replicate n false).count true
    rw [List.count_replicate]
    rfl
  | uh =>
    change ub.busy + n = ub.busy + (List.replicate n true).count true
    rw [List.count_replicate_self]
  | bitmap ubf => exact (copyBits_spec ubf.map n len ub).1

theorem elemOk_bitmap (len : Nat) (ub : Unrb) (h : MapOk len ub) : ElemOk ⟨len, .bitmap ub⟩ := by
  refine ⟨lt_of_le_of_lt zero_le h.2.2.2, fun ub' heq => ?_⟩
  rw [Ptr.bitmap.injEq] at heq
  exact heq ▸ h

theorem mapOk_absorb (ub : Unrb) (len : Nat) (uf : Unr) (h : MapOk len ub) (huf : ElemOk uf)
    (hfit : len + uf.len ≤ nbits) : MapOk (len + uf.len) (absorb ub len uf) := by
  rcases h with ⟨hle, hbusy, hpos, hlt⟩
  have hcount : (elemBits uf).count true ≤ uf.len :=
    elemBits_length uf ▸ List.count_le_length
  refine ⟨hfit, ?_, ?_, ?_⟩
  · rw [mapBits_absorb ub len uf huf.1, List.count_append, absorb_busy, hbusy]
  · rw [absorb_busy]; omega
  · rw [absorb_busy]; omega

theorem ListOk.tail {up : Unr} {l : List Unr} (h : ListOk (up :: l)) : ListOk l :=
  ⟨fun x hx => h.elems x (List.mem_cons_of_mem up hx), h.chain.tail⟩

theorem samePtr_bitmap (len : Nat) (ub : Unrb) (b : Unr) : samePtr ⟨len, .bitmap ub⟩ b = false := by
  rcases b with ⟨n, ptr⟩
  cases ptr <;> rfl

theorem samePtr_bitmap_right (a : Unr) (len : Nat) (ub : Unrb) :
    samePtr a ⟨len, .bitmap ub⟩ = false := by
  rcases a with ⟨n, ptr⟩
  cases ptr <;> rfl

/-- A bitmap may stand before any list. -/
theorem listOk_bitmap_cons (len : Nat) (ub : Unrb) (l : List Unr) (hub : MapOk len ub)
    (hl : ListOk l) : ListOk (⟨len, .bitmap ub⟩ :: l) := by
  refine ⟨?_, ?_⟩
  · intro x hx
    rcases List.mem_cons.mp hx with rfl | hx
    · exact elemOk_bitmap len ub hub
    · exact hl.elems x hx
  · rw [List.isChain_cons]
    exact ⟨fun y _ => samePtr_bitmap len ub y, hl.chain⟩

/-- What gathering leaves: a bitmap in front of what did not fit, with the same
    string and no more elements than before. -/
def Gathered (l r : List Unr) : Prop :=
  ∃ len ub rest, r = ⟨len, .bitmap ub⟩ :: rest ∧ MapOk len ub ∧ ListOk rest ∧ bits r = bits l ∧
    (∀ x, rest.getLast? = some x → l.getLast? = some x) ∧ r.length ≤ l.length

theorem absorbRest_spec (l : List Unr) : ∀ (ub : Unrb) (len alloc : Nat), MapOk len ub → ListOk l →
    Gathered (⟨len, .bitmap ub⟩ :: l) (absorbRest ub len alloc l).2 := by
  induction l with
  | nil =>
    intro ub len alloc hub hl
    exact ⟨len, ub, [], rfl, hub, hl, rfl, fun x hx => by simp at hx, le_rfl⟩
  | cons uf rest ih =>
    intro ub len alloc hub hl
    unfold absorbRest
    by_cases hfit : uf.len + len > nbits
    · rw [if_pos hfit]
      refine ⟨len, ub, uf :: rest, rfl, hub, hl, rfl, fun x hx => ?_, le_rfl⟩
      rwa [List.getLast?_cons_cons]
    rw [if_neg hfit]
    have huf := hl.elems uf (List.mem_cons_self ..)
    have hub' := mapOk_absorb ub len uf hub huf (by omega)
    rcases ih (absorb ub len uf) (len + uf.len) (alloc - weight uf) hub' hl.tail with
      ⟨len', ub', rest', hr, hok, hrest, hbits, hlast, hlen⟩
    refine ⟨len', ub', rest', hr, hok, hrest, ?_, fun x hx => ?_, ?_⟩
    · rw [hbits, bits_cons, bits_cons, bits_cons, ← List.append_assoc]
      congr 1
      exact mapBits_absorb ub len uf huf.1
    · have hx' := hlast x hx
      cases rest with
      | nil =>
        -- The remainder is empty, so there is no last element to track.
        simp only [absorbRest, List.cons.injEq] at hr
        rw [← hr.2] at hx
        simp at hx
      | cons y ys => simpa only [List.getLast?_cons_cons] using hx'
    · simp only [List.length_cons] at hlen ⊢
      omega

/-- A run's bits, read off the bitmap it was turned into. -/
theorem mapBits_runToBitmap (us : Unr) (hus : isBitmap us = false) :
    mapBits (runToBitmap us).map us.len = elemBits us ∧
      (runToBitmap us).busy = (elemBits us).count true := by
  rcases us with ⟨n, ptr⟩
  cases ptr with
  | null =>
    refine ⟨?_, ?_⟩
    · change mapBits (bitNclear (fun _ => false) 0 n) n = List.replicate n false
      rw [← mapBits_const]
      exact mapBits_congr _ _ n (fun i hi => if_pos (by omega))
    change 0 = (List.replicate n false).count true
    rw [List.count_replicate]
    rfl
  | uh =>
    refine ⟨?_, (List.count_replicate_self).symm⟩
    change mapBits (bitNset (fun _ => false) 0 n) n = List.replicate n true
    rw [← mapBits_const]
    exact mapBits_congr _ _ n (fun i hi => if_pos (by omega))
  | bitmap ub => cases hus

/-- How many of an element's numbers are allocated, by its kind. -/
theorem count_elemBits (up : Unr) (h : ElemOk up) :
    (up.ptr = .null → (elemBits up).count true = 0) ∧
      (up.ptr = .uh → (elemBits up).count true = up.len) ∧
      (isBitmap up = true → 0 < (elemBits up).count true ∧ (elemBits up).count true < up.len) := by
  rcases up with ⟨n, ptr⟩
  cases ptr with
  | null =>
    refine ⟨fun _ => ?_, nofun, nofun⟩
    change (List.replicate n false).count true = 0
    rw [List.count_replicate]
    rfl
  | uh => exact ⟨nofun, fun _ => List.count_replicate_self, nofun⟩
  | bitmap ub =>
    refine ⟨nofun, nofun, fun _ => ?_⟩
    rcases h.2 ub rfl with ⟨-, hbusy, hpos, hlt⟩
    change 0 < (mapBits ub.map n).count true ∧ (mapBits ub.map n).count true < n
    exact ⟨hbusy ▸ hpos, hbusy ▸ hlt⟩

/-- Two neighbours that fit together make a mixed bitmap. -/
theorem mapOk_pair (us uf : Unr) (hus : ElemOk us) (huf : ElemOk uf)
    (hrun : isBitmap us = false) (hdiff : samePtr us uf = false) (hfit : us.len + uf.len ≤ nbits) :
    MapOk (us.len + uf.len) (absorb (runToBitmap us) us.len uf) := by
  rcases mapBits_runToBitmap us hrun with ⟨hbits, hbusy⟩
  have hcount : (elemBits uf).count true ≤ uf.len := elemBits_length uf ▸ List.count_le_length
  refine ⟨hfit, ?_, ?_⟩
  · rw [mapBits_absorb _ _ uf huf.1, List.count_append, hbits, absorb_busy, hbusy]
  rw [absorb_busy, hbusy]
  have hs := count_elemBits us hus
  have hf := count_elemBits uf huf
  have hspos := hus.1
  have hfpos := huf.1
  -- The second element has a number of the other kind.
  rcases us with ⟨n, ptr⟩
  rcases uf with ⟨m, ptr'⟩
  cases ptr with
  | null =>
    rw [hs.1 rfl]
    cases ptr' with
    | null => cases hdiff
    | uh => rw [hf.2.1 rfl]; omega
    | bitmap ub => have := hf.2.2 rfl; omega
  | uh =>
    rw [hs.2.1 rfl]
    cases ptr' with
    | null => rw [hf.1 rfl]; omega
    | uh => cases hdiff
    | bitmap ub => have := hf.2.2 rfl; omega
  | bitmap ub => cases hrun

/-- Gathering where the first two elements fit together: the pair has become
    one element. -/
theorem gather_spec (alloc : Nat) (us uf : Unr) (rest : List Unr) (h : ListOk (us :: uf :: rest))
    (hfit : us.len + uf.len ≤ nbits) :
    ∃ len ub, MapOk len ub ∧ mapBits ub.map len = elemBits us ++ elemBits uf ∧
      Gathered (⟨len, .bitmap ub⟩ :: rest) (gather alloc us (uf :: rest)).2 := by
  have hus := h.elems us (List.mem_cons_self ..)
  have huf := h.tail.elems uf (List.mem_cons_self ..)
  have hdiff : samePtr us uf = false := (List.isChain_cons_cons.mp h.chain).1
  by_cases hrun : isBitmap us = false
  · have hgather : gather alloc us (uf :: rest) =
        absorbRest (absorb (runToBitmap us) us.len uf) (us.len + uf.len)
          (if isBitmap uf then alloc - 1 else alloc) rest := by
      rcases us with ⟨n, ptr⟩
      cases ptr with
      | null | uh => rfl
      | bitmap ub => cases hrun
    have hok := mapOk_pair us uf hus huf hrun hdiff hfit
    refine ⟨_, _, hok, ?_, hgather ▸ absorbRest_spec rest _ _ _ hok h.tail.tail⟩
    rw [mapBits_absorb _ _ uf huf.1, (mapBits_runToBitmap us hrun).1]
  rcases us with ⟨n, ptr⟩
  cases ptr with
  | null | uh => exact absurd rfl hrun
  | bitmap ub =>
    have hok := mapOk_absorb ub n uf (hus.2 ub rfl) huf hfit
    have hgather : gather alloc ⟨n, .bitmap ub⟩ (uf :: rest) =
        absorbRest (absorb ub n uf) (n + uf.len) (alloc - weight uf) rest := by
      have hle : ¬ uf.len + n > nbits := by simp only at hfit; omega
      simp only [gather, absorbRest, if_neg hle]
    exact ⟨_, _, hok, mapBits_absorb ub n uf huf.1,
      hgather ▸ absorbRest_spec rest _ _ _ hok h.tail.tail⟩

/-- The search answers with a sequence it saw, or with the one it was given. -/
theorem bestFrom_spec (l : List Unr) : ∀ (k ba us : Nat), bestFrom l k ba us = (ba, us) ∨
      ∃ pre uf rest, l = pre ++ uf :: rest ∧ (bestFrom l k ba us).2 = k + pre.length ∧
        (bestFrom l k ba us).1 = weight uf + gatherWeight uf.len rest := by
  induction l with
  | nil => intro k ba us; exact Or.inl rfl
  | cons uf rest ih =>
    intro k ba us
    -- A later answer is found behind one more element.
    have hlater : ∀ ba' us', (∃ pre uf' rest', rest = pre ++ uf' :: rest' ∧
        (bestFrom rest (k + 1) ba' us').2 = k + 1 + pre.length ∧
        (bestFrom rest (k + 1) ba' us').1 = weight uf' + gatherWeight uf'.len rest') →
        ∃ pre uf' rest', uf :: rest = pre ++ uf' :: rest' ∧
          (bestFrom rest (k + 1) ba' us').2 = k + pre.length ∧
          (bestFrom rest (k + 1) ba' us').1 = weight uf' + gatherWeight uf'.len rest' := by
      rintro ba' us' ⟨pre, uf', rest', hl, hk, hw⟩
      exact ⟨uf :: pre, uf', rest', by rw [hl]; rfl, by rw [hk, List.length_cons]; omega, hw⟩
    unfold bestFrom
    by_cases hbig : uf.len ≥ nbits
    · rw [if_pos hbig]
      rcases ih (k + 1) ba us with heq | hin
      · exact Or.inl heq
      · exact Or.inr (hlater ba us hin)
    rw [if_neg hbig]
    by_cases hmore : weight uf + gatherWeight uf.len rest > ba
    · simp only [if_pos hmore]
      rcases ih (k + 1) (weight uf + gatherWeight uf.len rest) k with heq | hin
      · exact Or.inr ⟨[], uf, rest, rfl, by rw [heq]; rfl, by rw [heq]⟩
      · exact Or.inr (hlater _ _ hin)
    simp only [if_neg hmore]
    rcases ih (k + 1) ba us with heq | hin
    · exact Or.inl heq
    · exact Or.inr (hlater ba us hin)

theorem ListOk.append_right {l m : List Unr} (h : ListOk (l ++ m)) : ListOk m :=
  ⟨fun x hx => h.elems x (List.mem_append_right l hx), (List.isChain_append.mp h.chain).2.1⟩

theorem ListOk.append_left {l m : List Unr} (h : ListOk (l ++ m)) : ListOk l :=
  ⟨fun x hx => h.elems x (List.mem_append_left m hx), (List.isChain_append.mp h.chain).1⟩

/-- Putting two lists together where the seam is sound. -/
theorem ListOk.append {l m : List Unr} (hl : ListOk l) (hm : ListOk m)
    (h : ∀ x ∈ l.getLast?, ∀ y ∈ m.head?, samePtr x y = false) : ListOk (l ++ m) := by
  refine ⟨fun x hx => ?_, List.isChain_append.mpr ⟨hl.chain, hm.chain, h⟩⟩
  rcases List.mem_append.mp hx with hx | hx
  · exact hl.elems x hx
  · exact hm.elems x hx

/-- What happens to the ends of the list: they keep their kind or become a
    bitmap. -/
def EndsKept (l r : List Unr) : Prop :=
  (∀ x, r.head? = some x → l.head? = some x ∨ isBitmap x = true) ∧
    (∀ x, r.getLast? = some x → l.getLast? = some x ∨ isBitmap x = true)

theorem optimizeUnr_spec (alloc alloc' : Nat) (head head' : List Unr) (h : ListOk head)
    (hopt : optimizeUnr alloc head = some (alloc', head')) :
    ListOk head' ∧ bits head' = bits head ∧ EndsKept head head' ∧ head'.length < head.length := by
  unfold optimizeUnr at hopt
  simp only at hopt
  by_cases hba : (bestFrom head 0 0 0).1 < 3
  · rw [if_pos hba] at hopt
    cases hopt
  rw [if_neg hba] at hopt
  rcases bestFrom_spec head 0 0 0 with heq | ⟨pre, us, rest, hhead, hk, hw⟩
  · rw [heq] at hba
    exact absurd (by omega : (0 : Nat) < 3) hba
  rw [hk, Nat.zero_add, hhead, List.drop_left, List.take_left] at hopt
  simp only [Option.some.injEq, Prod.mk.injEq] at hopt
  -- The sequence weighs three, so its first element has a neighbour that fits.
  cases rest with
  | nil =>
    rw [hw] at hba
    unfold gatherWeight weight at hba
    split at hba <;> omega
  | cons uf rest =>
    have hfit : us.len + uf.len ≤ nbits := by
      by_contra hc
      rw [hw] at hba
      unfold gatherWeight weight at hba
      rw [if_pos (show uf.len + us.len > nbits by omega)] at hba
      split at hba <;> omega
    rw [hhead] at h
    rcases gather_spec alloc us uf rest h.append_right hfit with
      ⟨len, ub, hok, hpair, len', ub', rest', hr, hok', hrest, hbits, hlast, hlen⟩
    rcases hopt with ⟨-, rfl⟩
    rw [hr] at hbits hlen ⊢
    refine ⟨?_, ?_, ⟨fun x hx => ?_, fun x hx => ?_⟩, ?_⟩
    · refine h.append_left.append (listOk_bitmap_cons len' ub' rest' hok' hrest) ?_
      intro x _ y hy
      rw [List.head?_cons, Option.mem_some_iff] at hy
      exact hy ▸ samePtr_bitmap_right x len' ub'
    · rw [hhead, bits_append, bits_append, hbits, bits_cons, bits_cons, bits_cons,
        ← List.append_assoc (elemBits us), ← hpair]
      rfl
    · cases pre with
      | nil =>
        rw [List.nil_append, List.head?_cons, Option.some.injEq] at hx
        exact Or.inr (hx ▸ rfl)
      | cons y ys =>
        rw [hhead]
        exact Or.inl hx
    · rw [List.getLast?_append_of_ne_nil _ (by simp)] at hx
      cases rest' with
      | nil =>
        rw [List.getLast?_singleton, Option.some.injEq] at hx
        exact Or.inr (hx ▸ rfl)
      | cons y ys =>
        rw [List.getLast?_cons_cons] at hx
        have hx' := hlast x hx
        cases rest with
        | nil =>
          rw [List.getLast?_singleton, Option.some.injEq] at hx'
          exact Or.inr (hx' ▸ rfl)
        | cons z zs =>
          refine Or.inl ?_
          rw [hhead, List.getLast?_append_of_ne_nil _ (by simp), List.getLast?_cons_cons,
            List.getLast?_cons_cons, ← hx', List.getLast?_cons_cons]
    · simp only [hhead, List.length_append, List.length_cons] at hlen ⊢
      omega

theorem EndsKept.trans {l m r : List Unr} (h : EndsKept l m) (h' : EndsKept m r) :
    EndsKept l r := by
  refine ⟨fun x hx => ?_, fun x hx => ?_⟩
  · rcases h'.1 x hx with hm | hb
    · exact h.1 x hm
    · exact Or.inr hb
  rcases h'.2 x hx with hm | hb
  · exact h.2 x hm
  · exact Or.inr hb

theorem optimizeLoop_spec (fuel : Nat) : ∀ (alloc : Nat) (head : List Unr), ListOk head →
    ListOk (optimizeLoop fuel alloc head).2 ∧ bits (optimizeLoop fuel alloc head).2 = bits head ∧
      EndsKept head (optimizeLoop fuel alloc head).2 := by
  induction fuel with
  | zero => intro alloc head h; exact ⟨h, rfl, fun x hx => Or.inl hx, fun x hx => Or.inl hx⟩
  | succ fuel ih =>
    intro alloc head h
    unfold optimizeLoop
    rcases hopt : optimizeUnr alloc head with _ | ⟨alloc', head'⟩
    · exact ⟨h, rfl, fun x hx => Or.inl hx, fun x hx => Or.inl hx⟩
    rcases optimizeUnr_spec alloc alloc' head head' h hopt with ⟨hok, hbits, hends, -⟩
    rcases ih alloc' head' hok with ⟨hok', hbits', hends'⟩
    exact ⟨hok', hbits'.trans hbits, hends.trans hends'⟩

/-- The length of the list is fuel enough: where the loop stops, the search
    finds nothing any more. -/
theorem optimizeLoop_done (fuel : Nat) : ∀ (alloc : Nat) (head : List Unr), ListOk head →
    head.length ≤ fuel →
    optimizeUnr (optimizeLoop fuel alloc head).1 (optimizeLoop fuel alloc head).2 = none := by
  induction fuel with
  | zero =>
    intro alloc head _ hlen
    rw [List.length_eq_zero_iff.mp (Nat.le_zero.mp hlen)]
    rfl
  | succ fuel ih =>
    intro alloc head h hlen
    unfold optimizeLoop
    rcases hopt : optimizeUnr alloc head with _ | ⟨alloc', head'⟩
    · exact hopt
    · rcases optimizeUnr_spec alloc alloc' head head' h hopt with ⟨hok, -, -, hlt⟩
      exact ih alloc' head' hok (by omega)

end FreeBSDKern.Unit
