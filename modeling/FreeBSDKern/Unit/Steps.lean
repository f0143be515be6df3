import FreeBSDKern.Unit.Collapse

/-!
# The Operations on the String

What the three operations do to the string of a number space: allocation sets
its first clear bit or finds none, allocation of a given number sets that bit
where it is clear, freeing clears the bit. The list in the middle is cut,
shifted and put together in a dozen ways, but each of them ends in a collapse,
so all that is left to compare are strings.

`Miscounts` is the one branch that does something else. With an empty list the
source sets the trailing count to what lies above the number asked for, and
counts from the end of `first` where it should count from `low`. Nothing goes
wrong as long as `first` is zero.

## Main definitions

* `Miscounts`: The branch whose trailing count is wrong.
* `Becomes`: A number space that is sound and has a given string.

## Theorems

* `allocUnrl_spec`: The lowest clear bit is set.
* `allocUnrSpecificl_spec`: A given clear bit is set, unless it miscounts.
* `freeUnrl_spec`: A set bit is cleared, with two spare elements at most.
-/

namespace FreeBSDKern.Unit

open Function

/-- A number of the `j`-th place of an element in the middle of a list. -/
theorem getElem?_mid (A B C : List Bool) (j : Nat) (hj : j < B.length) :
    (A ++ B ++ C)[A.length + j]? = B[j]? := by
  rw [List.append_assoc, List.getElem?_append_right (Nat.le_add_right _ _),
    Nat.add_sub_cancel_left, List.getElem?_append_left hj]

theorem set_mid (A B C : List Bool) (j : Nat) (v : Bool) (hj : j < B.length) :
    (A ++ B ++ C).set (A.length + j) v = A ++ B.set j v ++ C := by
  rw [List.append_assoc, List.set_append_right _ _ (Nat.le_add_right _ _),
    Nat.add_sub_cancel_left, List.set_append_left _ _ hj, List.append_assoc]

theorem set_replicate (n j : Nat) (b c : Bool) (hj : j < n) : (List.replicate n b).set j c =
      List.replicate j b ++ c :: List.replicate (n - (1 + j)) b := by
  have hn : n = j + (n - (1 + j) + 1) := by omega
  conv_lhs => rw [hn, ← List.replicate_append_replicate, List.replicate_succ]
  rw [List.set_append_right _ _ (by rw [List.length_replicate])]
  simp only [List.length_replicate, Nat.sub_self, List.set_cons_zero]

/-- Taking the next number in an ideal split. -/
theorem take_next (first last : Nat) (h : 0 < last) :
    List.replicate (first + 1) true ++ List.replicate (last - 1) false =
      (List.replicate first true ++ List.replicate last false).set first true := by
  rw [List.set_append_right _ _ (by rw [List.length_replicate]), List.length_replicate,
    Nat.sub_self, set_replicate last 0 false true h, List.replicate_succ']
  simp only [List.append_assoc, List.singleton_append, List.replicate_zero, List.nil_append,
    Nat.add_zero]

/-- The element a place lies in, or how far behind the list it lies. -/
theorem findElem_spec (l : List Unr) : ∀ i, (∀ j, findElem l i = .inl j → i = (bits l).length + j) ∧
      ∀ pre up post j, findElem l i = .inr (pre, up, post, j) →
        l = pre ++ up :: post ∧ i = (bits pre).length + j ∧ j < up.len := by
  induction l with
  | nil =>
    intro i
    refine ⟨fun j h => ?_, nofun⟩
    simp only [findElem, Sum.inl.injEq] at h
    rw [h, bits_nil, List.length_nil, Nat.zero_add]
  | cons up rest ih =>
    intro i
    unfold findElem
    by_cases hlt : up.len > i
    · rw [if_pos hlt]
      refine ⟨nofun, fun pre v post j h => ?_⟩
      simp only [Sum.inr.injEq, Prod.mk.injEq] at h
      rcases h with ⟨rfl, rfl, rfl, rfl⟩
      exact ⟨rfl, by rw [bits_nil, List.length_nil, Nat.zero_add], hlt⟩
    rw [if_neg hlt]
    rcases hrec : findElem rest (i - up.len) with j' | ⟨pre', v', post', j'⟩
    · refine ⟨fun j h => ?_, nofun⟩
      simp only [Sum.inl.injEq] at h
      have := (ih (i - up.len)).1 j' hrec
      rw [bits_cons, List.length_append, elemBits_length, ← h]
      omega
    refine ⟨nofun, fun pre v post j h => ?_⟩
    simp only [Sum.inr.injEq, Prod.mk.injEq] at h
    rcases h with ⟨rfl, rfl, rfl, rfl⟩
    rcases (ih (i - up.len)).2 pre' v' post' j' hrec with ⟨hl, hi, hj⟩
    refine ⟨by rw [hl]; rfl, ?_, hj⟩
    rw [bits_cons, List.length_append, elemBits_length]
    omega

variable (uh : Unrhdr) (item j : Nat) (pre : List Unr) (up : Unr) (post : List Unr) (len : Nat)

/-- The string, cut at one element of the list. -/
theorem units_split (h : uh.head = pre ++ up :: post) :
    units uh = (List.replicate uh.first true ++ bits pre) ++ elemBits up ++
      (bits post ++ List.replicate uh.last false) := by
  rw [units, h, bits_append, bits_cons]
  simp only [List.append_assoc]

theorem getElem?_units (j : Nat) (h : uh.head = pre ++ up :: post) (hj : j < up.len) :
    (units uh)[uh.first + (bits pre).length + j]? = (elemBits up)[j]? := by
  have hlen : (List.replicate uh.first true ++ bits pre).length = uh.first + (bits pre).length := by
    rw [List.length_append, List.length_replicate]
  rw [units_split uh pre up post h, ← hlen]
  exact getElem?_mid _ _ _ j (by rwa [elemBits_length])

theorem set_units (j : Nat) (v : Bool) (h : uh.head = pre ++ up :: post) (hj : j < up.len) :
    (units uh).set (uh.first + (bits pre).length + j) v =
      List.replicate uh.first true ++ bits pre ++ (elemBits up).set j v ++ bits post ++
        List.replicate uh.last false := by
  have hlen : (List.replicate uh.first true ++ bits pre).length = uh.first + (bits pre).length := by
    rw [List.length_append, List.length_replicate]
  rw [units_split uh pre up post h, ← hlen, set_mid _ _ _ j v (by rwa [elemBits_length])]
  simp only [List.append_assoc]

/-- What a step does to a number space: it stays sound, keeps its range, and
    its string is the given one. -/
def Becomes (uh uh' : Unrhdr) (string : List Bool) : Prop :=
  Sound uh' ∧ units uh' = string ∧ uh'.low = uh.low ∧ uh'.high = uh.high

theorem units_of_nil (h : uh.head = []) :
    units uh = List.replicate uh.first true ++ List.replicate uh.last false := by
  rw [units, h, bits_nil, List.append_nil]

theorem sound_nil (h : uh.head = []) : Sound uh := by
  refine ⟨h ▸ listOk_nil, fun up hup => ?_, fun up hup => ?_⟩
  · rw [h] at hup
    cases hup
  · rw [h] at hup
    cases hup

/-- A bitmap with one more bit written is what an operation may leave. -/
theorem hotOk_update (ub : Unrb) (j : Nat) (v : Bool) (busy : Nat) (h : MapOk len ub)
    (hbusy : busy = ((mapBits ub.map len).set j v).count true) :
    HotOk ⟨len, .bitmap ⟨busy, update ub.map j v⟩⟩ := by
  intro ub' heq
  rw [Ptr.bitmap.injEq] at heq
  refine ⟨h.1, lt_of_le_of_lt zero_le h.2.2.2, ?_⟩
  rw [← heq, mapBits_update]
  exact hbusy

theorem count_set_true (l : List Bool) (j : Nat) (h : l[j]? = some false) :
    (l.set j true).count true = l.count true + 1 := by
  rcases List.getElem?_eq_some_iff.mp h with ⟨hj, hval⟩
  rw [List.count_set hj, hval]
  rfl

theorem count_set_false (l : List Bool) (j : Nat) (h : l[j]? = some true) :
    (l.set j false).count true = l.count true - 1 := by
  rcases List.getElem?_eq_some_iff.mp h with ⟨hj, hval⟩
  rw [List.count_set hj, hval]
  rfl

theorem getElem?_mapBits (f : Nat → Bool) (n j : Nat) (hj : j < n) :
    (mapBits f n)[j]? = some (f j) := by
  rw [mapBits, List.getElem?_map, List.getElem?_range hj]
  rfl

/-- The first clear bit of a bitmap that is not all set. -/
theorem bitFfc_spec (map : Nat → Bool) (n : Nat) (h : (mapBits map n).count true < n) :
    ∃ y, bitFfc map n = some y ∧ y < n ∧ map y = false ∧ ∀ i, i < y → map i = true := by
  rcases hf : bitFfc map n with _ | y
  · exfalso
    have hall : ∀ b ∈ mapBits map n, true = b := by
      intro b hb
      rcases List.mem_map.mp hb with ⟨i, hi, rfl⟩
      have := List.find?_eq_none.mp hf i hi
      simpa using this
    rw [List.count_eq_length.mpr hall, mapBits_length] at h
    omega
  · rw [bitFfc, List.find?_range_eq_some] at hf
    exact ⟨y, rfl, List.mem_range.mp hf.2.1, by simpa using hf.1, fun i hi => by simpa using hf.2.2 i hi⟩

/-- `alloc_unr` takes the lowest free number, and fails only where there is
    none. -/
theorem allocUnrl_spec (h : Sound uh) :
    (∃ i uh', allocUnrl uh = some (((uh.low + i : Nat) : Int), uh') ∧ (units uh)[i]? = some false ∧
      (∀ j, j < i → (units uh)[j]? = some true) ∧ Becomes uh uh' ((units uh).set i true)) ∨
    (allocUnrl uh = some (-1, uh) ∧ ∀ b ∈ units uh, b = true) := by
  -- What lies below the list is allocated.
  have hbelow : ∀ j, j < uh.first → (units uh)[j]? = some true := by
    intro j hj
    rw [units, List.append_assoc, List.getElem?_append_left (by rwa [List.length_replicate]),
      List.getElem?_replicate, if_pos hj]
  cases hhead : uh.head with
  | nil =>
    by_cases hlast : uh.last > 0
    · refine Or.inl ⟨uh.first, _, by simp only [allocUnrl, hhead, hlast, if_true]; rfl, ?_, hbelow,
        ?_⟩
      · rw [units_of_nil uh hhead, List.getElem?_append_right (by rw [List.length_replicate]),
          List.length_replicate, Nat.sub_self, List.getElem?_replicate, if_pos hlast]
      · refine ⟨sound_nil _ rfl, ?_, rfl, rfl⟩
        rw [units_of_nil uh hhead, units_of_nil _ rfl, take_next uh.first uh.last hlast]
    refine Or.inr ⟨by simp only [allocUnrl, hhead, hlast, if_false], fun b hb => ?_⟩
    rw [units_of_nil uh hhead, show uh.last = 0 by omega, List.replicate_zero,
      List.append_nil] at hb
    exact List.eq_of_mem_replicate hb
  | cons up rest =>
    have hok := h.list
    rw [hhead] at hok
    have hup := hok.elems up (List.mem_cons_self ..)
    have hfirst : (units uh)[uh.first + (bits []).length + 0]? = (elemBits up)[0]? :=
      getElem?_units uh [] up rest 0 hhead hup.1
    rcases up with ⟨len, ptr⟩
    cases ptr with
    | uh => exact absurd rfl (h.front _ (by rw [hhead]; rfl))
    | null =>
      rcases collapseUnr_spec { uh with first := uh.first + 1, busy := uh.busy + 1 } []
        ⟨len - 1, .null⟩ rest listOk_nil (hotOk_run _ _ rfl) hok.tail with
        ⟨hs, hu, hl, hh⟩
      refine Or.inl ⟨uh.first, _, by simp only [allocUnrl, hhead], ?_, hbelow, hs, ?_, hl, hh⟩
      · rw [bits_nil, List.length_nil] at hfirst
        rw [show uh.first = uh.first + 0 + 0 by omega, hfirst]
        exact List.getElem?_replicate.trans (if_pos hup.1)
      have hset := set_units uh [] ⟨len, .null⟩ rest 0 true hhead hup.1
      rw [bits_nil, List.length_nil] at hset
      rw [hu]
      refine Eq.trans ?_ hset.symm
      simp only [elemBits, bits_nil, List.append_nil]
      rw [set_replicate len 0 false true hup.1, List.replicate_succ']
      simp only [List.append_assoc, List.replicate_zero, List.nil_append, Nat.add_zero,
        List.cons_append]
    | bitmap ub =>
      have hmap := hup.2 ub rfl
      rcases bitFfc_spec ub.map len (hmap.2.1 ▸ hmap.2.2.2) with ⟨y, hy, hlt, hclear, hset⟩
      have hbit := getElem?_mapBits ub.map len y hlt
      rw [hclear] at hbit
      have hcount := count_set_true _ y hbit
      rcases collapseUnr_spec { uh with busy := uh.busy + 1 } []
        ⟨len, .bitmap ⟨ub.busy + 1, update ub.map y true⟩⟩ rest listOk_nil
        (hotOk_update len ub y true _ hmap (by rw [hcount, hmap.2.1])) hok.tail with
        ⟨hs, hu, hl, hh⟩
      refine Or.inl ⟨uh.first + y, _, ?_, ?_, fun j hj => ?_, hs, ?_, hl, hh⟩
      · simp only [allocUnrl, hhead, hy, Nat.add_assoc]
      · exact (getElem?_units uh [] _ rest y hhead hlt).trans hbit
      · by_cases hjf : j < uh.first
        · exact hbelow j hjf
        have hjlt : j - uh.first < y := by omega
        have hget := getElem?_units uh [] _ rest (j - uh.first) hhead
          (show j - uh.first < len by omega)
        rw [bits_nil, List.length_nil, Nat.add_zero, Nat.add_sub_cancel' (by omega)] at hget
        rw [hget]
        exact (getElem?_mapBits ub.map len _ (by omega)).trans (by rw [hset _ hjlt])
      rw [hu]
      refine Eq.trans ?_ (set_units uh [] _ rest y true hhead hlt).symm
      simp only [elemBits, mapBits_update]

/-- The tail of `alloc_unr_specific`: the numbers above the list are at most
    those above the number taken. -/
theorem specificDone_spec (hpre : ListOk pre) (hup : HotOk up) (hpost : ListOk post) :
    ∃ uh', specificDone uh item pre up post = ((item : Int), uh') ∧
      Becomes uh uh' (List.replicate uh.first true ++ bits pre ++ elemBits up ++ bits post ++
        List.replicate (min uh.last (uh.high - uh.low - (item - uh.low))) false) := by
  unfold specificDone
  by_cases hlast : uh.last > uh.high - uh.low - (item - uh.low)
  · simp only [if_pos hlast, Nat.min_eq_right (le_of_lt hlast)]
    exact ⟨_, rfl, collapseUnr_spec _ pre up post hpre hup hpost⟩
  · simp only [if_neg hlast, Nat.min_eq_left (not_lt.mp hlast)]
    exact ⟨_, rfl, collapseUnr_spec _ pre up post hpre hup hpost⟩

/-- The branch of `alloc_unr_specific` whose trailing count is wrong: the list
    is empty, numbers are allocated below it, and the number asked for is
    neither the next one nor out of range. -/
def Miscounts (uh : Unrhdr) (item : Nat) : Prop :=
  uh.head.isEmpty ∧ 0 < uh.first ∧ uh.low + uh.first < item ∧ item ≤ uh.high

/-- A number of the string lies in its range. -/
def Covers (uh : Unrhdr) : Prop :=
  uh.low ≤ uh.high ∧ (units uh).length = uh.high - uh.low + 1

theorem units_length : (units uh).length = uh.first + (bits uh.head).length + uh.last := by
  simp only [units, List.length_append, List.length_replicate]

/-- Cutting a run around one of its numbers. -/
theorem bits_cut (j : Nat) (b : Bool) (ptr : Ptr)
    (hptr : ∀ n, elemBits ⟨n, ptr⟩ = List.replicate n b) (hj : j < len) :
    bits (pre ++ if j > 0 then [⟨j, ptr⟩] else []) ++ [!b] ++
        bits ((if len - (1 + j) > 0 then [⟨len - (1 + j), ptr⟩] else []) ++ post) =
      bits pre ++ (List.replicate len b).set j (!b) ++ bits post := by
  have hone : ∀ n, bits (if n > 0 then [(⟨n, ptr⟩ : Unr)] else []) = List.replicate n b := by
    intro n
    by_cases hn : n > 0
    · rw [if_pos hn, bits_cons, bits_nil, List.append_nil, hptr]
    · rw [if_neg hn, show n = 0 by omega]
      rfl
  rw [bits_append, bits_append, hone, hone, set_replicate len j b (!b) hj]
  simp only [List.append_assoc, List.cons_append, List.nil_append]

/-- What is left of a run on either side of the cut fits its neighbours. -/
theorem listOk_cut (m n : Nat) (ptr : Ptr) (hrun : isBitmap ⟨len, ptr⟩ = false)
    (h : ListOk (pre ++ ⟨len, ptr⟩ :: post)) : ListOk (pre ++ if m > 0 then [⟨m, ptr⟩] else []) ∧
      ListOk ((if n > 0 then [⟨n, ptr⟩] else []) ++ post) := by
  have hrun' : ∀ k, isBitmap ⟨k, ptr⟩ = false := fun k => hrun
  refine ⟨?_, ?_⟩
  · by_cases hm : m > 0
    · rw [if_pos hm]
      exact h.append_left.concat _ (elemOk_run m ptr (hrun' m) hm)
        (fun x hx => h.seam x ⟨len, ptr⟩ hx rfl)
    · rw [if_neg hm, List.append_nil]
      exact h.append_left
  by_cases hn : n > 0
  · rw [if_pos hn]
    refine (listOk_singleton _ (elemOk_run n ptr (hrun' n) hn)).append h.append_right.tail
      (fun x hx y hy => ?_)
    rw [List.getLast?_singleton, Option.mem_some_iff] at hx
    rw [← hx]
    exact h.append_right.seam (l := [⟨len, ptr⟩]) ⟨len, ptr⟩ y rfl hy
  · rw [if_neg hn, List.nil_append]
    exact h.append_right.tail

theorem length_cut (m n : Nat) (ptr : Ptr) : (if m > 0 then [(⟨m, ptr⟩ : Unr)] else []).length +
      (if n > 0 then [(⟨n, ptr⟩ : Unr)] else []).length ≤ 2 := by
  split <;> split <;> simp

/-- `alloc_unr_specific` of a number behind the list. -/
theorem specificBehind_spec (h : Sound uh) (hc : Covers uh) (hne : uh.head ≠ [])
    (hlow : uh.low + uh.first ≤ item) (hhigh : item ≤ uh.high)
    (hfind : findElem uh.head (item - uh.low - uh.first) = .inl j) :
    ∃ uh', allocUnrSpecificl uh item 2 = some ((item : Int), uh') ∧
      (units uh)[item - uh.low]? = some false ∧
      Becomes uh uh' ((units uh).set (item - uh.low) true) := by
  have hj := (findElem_spec uh.head _).1 j hfind
  have hlen := hc.2
  rw [units_length] at hlen
  have hplace : item - uh.low = (List.replicate uh.first true ++ bits uh.head).length + j := by
    rw [List.length_append, List.length_replicate]
    omega
  have hjlast : j < uh.last := by omega
  have hlast : min uh.last (uh.high - uh.low - (item - uh.low)) = uh.last - (1 + j) := by omega
  have hget : (units uh)[item - uh.low]? = some false := by
    rw [units, hplace, List.getElem?_append_right (Nat.le_add_right _ _), Nat.add_sub_cancel_left,
      List.getElem?_replicate, if_pos hjlast]
  have hset : (units uh).set (item - uh.low) true = List.replicate uh.first true ++
      (bits uh.head ++ List.replicate j false) ++ [true] ++
        List.replicate (uh.last - (1 + j)) false := by
    rw [units, hplace, List.set_append_right _ _ (Nat.le_add_right _ _), Nat.add_sub_cancel_left,
      set_replicate uh.last j false true hjlast]
    simp only [List.append_assoc, List.cons_append, List.nil_append]
  have hback : ∀ x, uh.head.getLast? = some x → samePtr x ⟨j, .null⟩ = false := by
    intro x hx
    have hnull := h.back x hx
    rcases x with ⟨n, ptr⟩
    cases ptr with
    | null => exact absurd rfl hnull
    | uh => rfl
    | bitmap ub => rfl
  have hnot : ¬ (item < uh.low + uh.first ∨ item > uh.high) := by omega
  have hnil : uh.head.isEmpty = false := by
    cases hh : uh.head with
    | nil => exact absurd hh hne
    | cons x xs => rfl
  unfold allocUnrSpecificl
  rw [if_neg hnot, if_neg (by rw [hnil]; simp)]
  simp only [hnil, Bool.false_eq_true, if_false, hfind]
  by_cases hpos : j > 0
  · rw [if_pos hpos]
    rcases specificDone_spec { uh with alloc := uh.alloc + 2 } item (uh.head ++ [⟨j, .null⟩])
      ⟨1, .uh⟩ [] (h.list.concat _ (elemOk_run j .null rfl hpos) hback) (hotOk_run 1 .uh rfl)
      listOk_nil with ⟨uh', hdone, hs, hu, hl, hh⟩
    refine ⟨uh', by rw [newUnr, if_pos (by omega), Option.map_some, hdone], hget, hs, ?_, hl, hh⟩
    rw [hu, hset, hlast]
    simp only [bits_append, bits_cons, bits_nil, elemBits, List.append_nil, List.replicate_one]
  rw [if_neg hpos]
  rcases specificDone_spec { uh with alloc := uh.alloc + 1 } item uh.head ⟨1, .uh⟩ [] h.list
    (hotOk_run 1 .uh rfl) listOk_nil with ⟨uh', hdone, hs, hu, hl, hh⟩
  refine ⟨uh', by rw [newUnr, if_pos (by omega), Option.map_some, hdone], hget, hs, ?_, hl, hh⟩
  rw [hu, hset, hlast, show j = 0 by omega]
  simp only [bits_nil, elemBits, List.append_nil, List.replicate_one, List.replicate_zero]

/-- `alloc_unr_specific` of a number in the list. -/
theorem specificInside_spec (h : Sound uh) (hc : Covers uh) (hlow : uh.low + uh.first ≤ item)
    (hhigh : item ≤ uh.high)
    (hfind : findElem uh.head (item - uh.low - uh.first) = .inr (pre, up, post, j)) :
    ((units uh)[item - uh.low]? = some false → ∃ uh', allocUnrSpecificl uh item 2 =
        some ((item : Int), uh') ∧ Becomes uh uh' ((units uh).set (item - uh.low) true)) ∧
    ((units uh)[item - uh.low]? = some true → allocUnrSpecificl uh item 2 = some (-1, uh)) := by
  rcases (findElem_spec uh.head _).2 pre up post j hfind with ⟨hhead, hplace, hj⟩
  have hidx : item - uh.low = uh.first + (bits pre).length + j := by omega
  have hlen := hc.2
  rw [units_length, hhead, bits_append, bits_cons, List.length_append, List.length_append,
    elemBits_length] at hlen
  have hlast : min uh.last (uh.high - uh.low - (item - uh.low)) = uh.last := by omega
  have hok := h.list
  rw [hhead] at hok
  have hup := hok.append_right.elems up (List.mem_cons_self ..)
  have hget := getElem?_units uh pre up post j hhead hj
  have hset := set_units uh pre up post j true hhead hj
  rw [← hidx] at hget hset
  have hnot : ¬ (item < uh.low + uh.first ∨ item > uh.high) := by omega
  have hnil : uh.head.isEmpty = false := by rw [hhead]; cases pre <;> rfl
  unfold allocUnrSpecificl
  rw [if_neg hnot, if_neg (by rw [hnil]; simp), hget, hset]
  simp only [hnil, Bool.false_eq_true, if_false, hfind]
  rcases up with ⟨len, ptr⟩
  cases ptr with
  | uh =>
    simp only [elemBits, List.getElem?_replicate]
    refine ⟨fun hf => ?_, fun _ => trivial⟩
    rw [if_pos hj] at hf
    cases hf
  | null =>
    refine ⟨fun _ => ?_, fun ht => ?_⟩
    · rcases listOk_cut pre post len j (len - (1 + j)) .null rfl hok with ⟨hfront, htail⟩
      have hspare := length_cut (len - (1 + j)) j .null
      rcases specificDone_spec { uh with alloc := uh.alloc + _ } item _ ⟨1, .uh⟩ _ hfront
        (hotOk_run 1 .uh rfl) htail with ⟨uh', hdone, hs, hu, hl, hh⟩
      refine ⟨uh', by rw [newUnr, if_pos hspare, Option.map_some, hdone], hs, ?_, hl, hh⟩
      rw [hu, hlast]
      simp only [List.append_assoc]
      congr 1
      have hcut := bits_cut pre post len j false .null (fun n => rfl) hj
      simp only [List.append_assoc, Bool.not_false] at hcut
      simp only [elemBits, List.replicate_one, ← List.append_assoc]
      simp only [← List.append_assoc] at hcut
      rw [hcut]
    simp only [elemBits, List.getElem?_replicate] at ht
    rw [if_pos hj] at ht
    cases ht
  | bitmap ub =>
    have hmap := hup.2 ub rfl
    have hbit := getElem?_mapBits ub.map len j hj
    simp only [elemBits]
    rw [hbit]
    refine ⟨fun hf => ?_, fun ht => ?_⟩
    · rw [Option.some.injEq] at hf
      rw [hf] at hbit
      have hcount := count_set_true _ j hbit
      rcases specificDone_spec uh item pre
        ⟨len, .bitmap ⟨ub.busy + 1, update ub.map j true⟩⟩ post hok.append_left
        (hotOk_update len ub j true _ hmap (by rw [hcount, hmap.2.1])) hok.append_right.tail with
        ⟨uh', hdone, hs, hu, hl, hh⟩
      refine ⟨uh', by simp only [hf, Bool.false_eq_true, if_false, hdone], hs, ?_, hl, hh⟩
      rw [hu, hlast]
      simp only [elemBits, mapBits_update]
    · rw [Option.some.injEq] at ht
      simp only [ht, if_true]

/-- `alloc_unr_specific` of the next number, with an empty list. -/
theorem specificNext_spec (hnil : uh.head = [])
    (hrange : ¬ (item < uh.low + uh.first ∨ item > uh.high)) (hnext : item - uh.low = uh.first)
    (hlast : 0 < uh.last) : ∃ uh', allocUnrSpecificl uh item 2 = some ((item : Int), uh') ∧
      Becomes uh uh' ((units uh).set (item - uh.low) true) := by
  refine ⟨⟨uh.head, uh.low, uh.high, uh.busy + 1, uh.alloc, uh.first + 1, uh.last - 1⟩,
    by rw [allocUnrSpecificl, if_neg hrange, if_pos ⟨by rw [hnil]; rfl, hnext⟩],
    sound_nil _ hnil, ?_, rfl, rfl⟩
  rw [units_of_nil uh hnil, hnext, ← take_next uh.first uh.last hlast]
  simp only [units, hnil, bits_nil, List.append_nil]

/-- `alloc_unr_specific` of a later number, with nothing allocated yet. -/
theorem specificApart_spec (hnil : uh.head = [])
    (hrange : ¬ (item < uh.low + uh.first ∨ item > uh.high)) (hnext : ¬ item - uh.low = uh.first)
    (hzero : uh.first = 0) (hlast : uh.last = uh.high - uh.low + 1) :
    ∃ uh', allocUnrSpecificl uh item 2 = some ((item : Int), uh') ∧
      Becomes uh uh' ((units uh).set (item - uh.low) true) := by
  refine ⟨⟨[⟨item - uh.low - uh.first, .null⟩, ⟨1, .uh⟩], uh.low, uh.high, uh.busy + 1, uh.alloc + 2,
    uh.first, uh.high - uh.low - (item - uh.low - uh.first)⟩, ?_, ?_, ?_, rfl, rfl⟩
  · rw [allocUnrSpecificl, if_neg hrange, if_neg (fun hand => hnext hand.2)]
    simp only [hnil, List.isEmpty_nil, if_true, newUnr, Nat.le_refl, Option.map_some]
  · refine ⟨⟨?_, ?_⟩, fun up hup => ?_, fun up hup => ?_⟩
    · intro up hup
      rcases List.mem_cons.mp hup with rfl | hup
      · exact elemOk_run _ .null rfl (by omega)
      · rw [List.mem_singleton.mp hup]
        exact elemOk_run 1 .uh rfl (by omega)
    · exact List.isChain_cons_cons.mpr ⟨rfl, List.isChain_singleton _⟩
    · cases hup
      exact Ptr.noConfusion
    · cases hup
      exact Ptr.noConfusion
  rw [units_of_nil uh hnil, hzero, List.replicate_zero, List.nil_append,
    set_replicate uh.last _ false true (by omega)]
  simp only [units, bits_cons, bits_nil, elemBits, List.replicate_zero, List.nil_append,
    List.replicate_one, List.append_nil, List.append_assoc, List.cons_append, Nat.sub_zero]
  rw [show uh.high - uh.low - (item - uh.low) = uh.last - (1 + (item - uh.low)) by omega]

/-- `alloc_unr_specific` takes exactly the free numbers of the range, where it
    does not miscount. -/
theorem allocUnrSpecificl_spec (h : Sound uh) (hc : Covers uh) (hm : ¬ Miscounts uh item) :
    (uh.low ≤ item → (units uh)[item - uh.low]? = some false →
      ∃ uh', allocUnrSpecificl uh item 2 = some ((item : Int), uh') ∧
        Becomes uh uh' ((units uh).set (item - uh.low) true)) ∧
    (¬ (uh.low ≤ item ∧ (units uh)[item - uh.low]? = some false) →
      allocUnrSpecificl uh item 2 = some (-1, uh)) := by
  by_cases hrange : item < uh.low + uh.first ∨ item > uh.high
  · -- Below `first` everything is allocated, above `high` there is nothing.
    have hval : uh.low ≤ item → (units uh)[item - uh.low]? ≠ some false := by
      intro hlow
      rcases hrange with hbelow | habove
      · rw [units, List.append_assoc, List.getElem?_append_left (by
          rw [List.length_replicate]; omega), List.getElem?_replicate, if_pos (by omega)]
        simp
      · rw [List.getElem?_eq_none (by have := hc.1; rw [hc.2]; omega)]
        simp
    refine ⟨fun hlow hf => absurd hf (hval hlow), fun _ => ?_⟩
    rw [allocUnrSpecificl, if_pos hrange]
  have hlow : uh.low + uh.first ≤ item := by omega
  have hhigh : item ≤ uh.high := by omega
  by_cases hnil : uh.head = []
  · -- The list is empty; only the next number or a space without any allocated
    -- one is left.
    have hlen := hc.2
    rw [units_length, hnil, bits_nil, List.length_nil] at hlen
    have hget : (units uh)[item - uh.low]? = some false := by
      rw [units_of_nil uh hnil, List.getElem?_append_right (by rw [List.length_replicate]; omega),
        List.length_replicate, List.getElem?_replicate, if_pos (by omega)]
    refine ⟨fun _ _ => ?_, fun hno => absurd ⟨by omega, hget⟩ hno⟩
    by_cases hnext : item - uh.low = uh.first
    · exact specificNext_spec uh item hnil hrange hnext (by omega)
    have hzero : uh.first = 0 := by
      by_contra hpos
      exact hm ⟨by rw [hnil]; rfl, by omega, by omega, hhigh⟩
    exact specificApart_spec uh item hnil hrange hnext hzero (by omega)
  rcases hfind : findElem uh.head (item - uh.low - uh.first) with j | ⟨pre, up, post, j⟩
  · rcases specificBehind_spec uh item j h hc hnil hlow hhigh hfind with ⟨uh', hex, hget, hb⟩
    exact ⟨fun _ _ => ⟨uh', hex, hb⟩, fun hno => absurd ⟨by omega, hget⟩ hno⟩
  rcases specificInside_spec uh item j pre up post h hc hlow hhigh hfind with ⟨hfree, hbusy⟩
  refine ⟨fun _ => hfree, fun hno => hbusy ?_⟩
  have hlt : item - uh.low < (units uh).length := by rw [hc.2]; omega
  rw [List.getElem?_eq_getElem hlt] at hno ⊢
  cases hval : (units uh)[item - uh.low] with
  | true => rfl
  | false => exact absurd ⟨by omega, by rw [hval]⟩ hno

/-- Cutting an allocated run around the number that is freed. -/
theorem split_spec (j spare : Nat) (hok : ListOk (pre ++ ⟨len, .uh⟩ :: post)) (hj : j < len)
    (hspare : (if len - (1 + j) > 0 then 1 else 0) + (if j > 0 then 1 else 0) ≤ spare) :
    ∃ uh', freeInList.split uh ⟨len, .uh⟩ pre post j spare = some uh' ∧
      Becomes uh uh' (List.replicate uh.first true ++ bits pre ++
        (List.replicate len true).set j false ++ bits post ++ List.replicate uh.last false) := by
  rcases listOk_cut pre post len j (len - (1 + j)) .uh rfl hok with ⟨hfront, htail⟩
  have hlen : (if len - (1 + j) > 0 then [(⟨len - (1 + j), .uh⟩ : Unr)] else []).length +
      (if j > 0 then [(⟨j, .uh⟩ : Unr)] else []).length ≤ spare := by
    refine le_trans (le_of_eq ?_) hspare
    split <;> split <;> rfl
  rcases collapseUnr_spec { uh with alloc := uh.alloc + _ } _ ⟨1, .null⟩ _ hfront
    (hotOk_run 1 .null rfl) htail with ⟨hs, hu, hl, hh⟩
  refine ⟨_, by rw [freeInList.split, newUnr, if_pos hlen, Option.map_some], hs, ?_, hl, hh⟩
  have hcut := bits_cut pre post len j true .uh (fun n => rfl) hj
  rw [hu]
  simp only [List.append_assoc, elemBits, List.replicate_one, Bool.not_true] at hcut ⊢
  congr 1
  simp only [← List.append_assoc] at hcut ⊢
  rw [hcut]

/-- A run that grows keeps its neighbours. -/
theorem listOk_grow (n : Nat) (ptr : Ptr) (hrun : isBitmap ⟨n, ptr⟩ = false)
    (h : ListOk (pre ++ ⟨n, ptr⟩ :: post)) : ListOk (pre ++ ⟨n + 1, ptr⟩ :: post) := by
  have hcut := listOk_cut pre post n (n + 1) (n + 1) ptr hrun h
  rw [if_pos (by omega)] at hcut
  rw [List.append_cons]
  refine hcut.1.append h.append_right.tail (fun x hx y hy => ?_)
  rw [List.getLast?_concat, Option.mem_some_iff] at hx
  rw [← hx]
  exact h.append_right.seam (l := [⟨n, ptr⟩]) ⟨n, ptr⟩ y rfl hy

theorem splitOrShift_spec (j spare : Nat) (hok : ListOk (pre ++ ⟨len, .uh⟩ :: post)) (hj : j < len)
    (hspare : (if len - (1 + j) > 0 then 1 else 0) + (if j > 0 then 1 else 0) ≤ spare) :
    ∃ uh', freeInList.splitOrShift uh ⟨len, .uh⟩ pre post j spare = some uh' ∧
      Becomes uh uh' (List.replicate uh.first true ++ bits pre ++
        (List.replicate len true).set j false ++ bits post ++ List.replicate uh.last false) := by
  have hsplit := split_spec uh pre post len j spare hok hj hspare
  unfold freeInList.splitOrShift
  cases post with
  | nil => exact hsplit
  | cons upn post' =>
    rcases upn with ⟨n, ptr⟩
    cases ptr with
    | uh | bitmap ub => exact hsplit
    | null =>
      by_cases hend : j = len - 1
      · simp only [if_pos hend]
        rcases collapseUnr_spec uh pre ⟨len - 1, .uh⟩ (⟨n + 1, .null⟩ :: post')
          hok.append_left (hotOk_run _ .uh rfl)
          (listOk_grow [] post' n .null rfl hok.append_right.tail) with ⟨hs, hu, hl, hh⟩
        refine ⟨_, rfl, hs, ?_, hl, hh⟩
        rw [hu, set_replicate len j true false hj, hend, show len - (1 + (len - 1)) = 0 by omega]
        simp only [bits_cons, elemBits, List.replicate_succ, List.append_assoc, List.replicate_zero,
          List.cons_append, List.nil_append]
      · simp only [if_neg hend]
        exact hsplit

/-- `free_unr` of an allocated number in the list. -/
theorem freeInList_spec (place spare : Nat) (h : ListOk uh.head)
    (halloc : (bits uh.head)[place]? = some true) (hspare : spare = 2 ∨ spare = 1 ∧ place = 0) :
    ∃ uh', freeInList uh place spare = some uh' ∧
      Becomes uh uh' ((units uh).set (uh.first + place) false) := by
  unfold freeInList
  rcases hfind : findElem uh.head place with j | ⟨pre, up, post, j⟩
  · have hj := (findElem_spec uh.head place).1 j hfind
    rw [List.getElem?_eq_none (by omega)] at halloc
    cases halloc
  rcases (findElem_spec uh.head place).2 pre up post j hfind with ⟨hhead, hplace, hj⟩
  have hget := getElem?_mid (bits pre) (elemBits up) (bits post) j (by rwa [elemBits_length])
  have hset := set_units uh pre up post j false hhead hj
  rw [hhead, bits_append, bits_cons, ← List.append_assoc, hplace, hget] at halloc
  rw [Nat.add_assoc, ← hplace] at hset
  rw [hset]
  rw [hhead] at h
  have hup := h.append_right.elems up (List.mem_cons_self ..)
  rcases up with ⟨len, ptr⟩
  cases ptr with
  | null =>
    simp only [elemBits, List.getElem?_replicate] at halloc
    rw [if_pos hj] at halloc
    cases halloc
  | bitmap ub =>
    have hmap := hup.2 ub rfl
    simp only [elemBits] at halloc hj ⊢
    have hcount := count_set_false _ j halloc
    rw [getElem?_mapBits ub.map len j hj, Option.some.injEq] at halloc
    simp only [halloc, if_true]
    rcases collapseUnr_spec { uh with busy := uh.busy - 1 } pre
      ⟨len, .bitmap ⟨ub.busy - 1, update ub.map j false⟩⟩ post h.append_left
      (hotOk_update len ub j false _ hmap (by rw [hcount, hmap.2.1])) h.append_right.tail with
      ⟨hs, hu, hl, hh⟩
    refine ⟨_, rfl, hs, ?_, hl, hh⟩
    rw [hu]
    simp only [elemBits, mapBits_update]
  | uh =>
    simp only [elemBits] at hj ⊢
    by_cases hone : len = 1
    · -- The run is this one number.
      rw [if_pos hone]
      rcases collapseUnr_spec { uh with busy := uh.busy - 1 } pre ⟨len, .null⟩ post h.append_left
        (hotOk_run len .null rfl) h.append_right.tail with ⟨hs, hu, hl, hh⟩
      refine ⟨_, rfl, hs, ?_, hl, hh⟩
      rw [hu, show j = 0 by omega, hone]
      rfl
    rw [if_neg hone]
    have hnew : (if len - (1 + j) > 0 then 1 else 0) + (if j > 0 then 1 else 0) ≤ spare := by
      rcases hspare with rfl | ⟨rfl, hzero⟩
      · split <;> split <;> omega
      · rw [if_neg (show ¬ j > 0 by omega)]
        split <;> omega
    have hshift := splitOrShift_spec { uh with busy := uh.busy - 1 } pre post len j spare h hj hnew
    split
    · rename_i n hprev
      by_cases hzero : j = 0
      · rw [if_pos hzero]
        rcases List.eq_nil_or_concat pre with rfl | ⟨pre', upp, rfl⟩
        · cases hprev
        rw [List.concat_eq_append] at *
        rw [List.getLast?_concat, Option.some.injEq] at hprev
        rw [hprev] at h ⊢
        rw [List.dropLast_concat]
        have hgrow := listOk_grow pre' [] n .null rfl h.append_left
        rcases collapseUnr_spec { uh with busy := uh.busy - 1 } (pre' ++ [⟨n + 1, .null⟩])
          ⟨len - 1, .uh⟩ post hgrow (hotOk_run _ .uh rfl) h.append_right.tail with
          ⟨hs, hu, hl, hh⟩
        refine ⟨_, rfl, hs, ?_, hl, hh⟩
        rw [hu, set_replicate len j true false hj, hzero]
        simp only [bits_append, bits_cons, bits_nil, elemBits, List.replicate_succ',
          List.append_assoc, List.replicate_zero, List.cons_append, List.nil_append, Nat.add_zero]
      · rw [if_neg hzero]
        exact hshift
    · exact hshift

/-- `free_unr` of an allocated number frees exactly it. -/
theorem freeUnrl_spec (h : Sound uh) (halloc : (units uh)[item - uh.low]? = some true) :
    ∃ uh', freeUnrl uh item 2 = some uh' ∧
      Becomes uh uh' ((units uh).set (item - uh.low) false) := by
  unfold freeUnrl
  generalize item - uh.low = place at halloc ⊢
  by_cases hideal : place + 1 = uh.first ∧ uh.head.isEmpty
  · have hnil := List.isEmpty_iff.mp hideal.2
    refine ⟨⟨uh.head, uh.low, uh.high, uh.busy - 1, uh.alloc, uh.first - 1, uh.last + 1⟩,
      by simp only [if_pos hideal], sound_nil _ hnil, ?_, rfl, rfl⟩
    rw [units_of_nil uh hnil, List.set_append_left _ _ (by rw [List.length_replicate]; omega),
      set_replicate uh.first place true false (by omega), ← hideal.1]
    simp only [units, hnil, bits_nil, List.append_nil, List.append_assoc, Nat.add_sub_cancel,
      Nat.add_comm 1, Nat.sub_self, List.replicate_zero, List.replicate_succ, List.cons_append,
      List.nil_append]
  simp only [if_neg hideal]
  by_cases hbelow : place < uh.first
  · -- A run is split off `first`; it begins with the number freed.
    have hrun : ListOk (⟨uh.first - place, .uh⟩ :: uh.head) := by
      refine (listOk_singleton _ (elemOk_run _ .uh rfl (by omega))).append h.list
        (fun x hx y hy => ?_)
      rw [List.getLast?_singleton, Option.mem_some_iff] at hx
      have hfront := h.front y hy
      rcases y with ⟨n, ptr⟩
      rw [← hx]
      cases ptr with
      | null => rfl
      | uh => exact absurd rfl hfront
      | bitmap ub => rfl
    have hbits : (bits (⟨uh.first - place, .uh⟩ :: uh.head))[0]? = some true := by
      rw [bits_cons, List.getElem?_append_left (by rw [elemBits_length]; simp only; omega)]
      exact List.getElem?_replicate.trans (if_pos (Nat.sub_pos_of_lt hbelow))
    have hunits : units { uh with head := ⟨uh.first - place, .uh⟩ :: uh.head, first := place,
                                  alloc := uh.alloc + 1 } = units uh := by
      simp only [units, bits_cons, elemBits, ← List.append_assoc, List.replicate_append_replicate,
        Nat.add_sub_cancel' (le_of_lt hbelow)]
    rcases freeInList_spec { uh with head := ⟨uh.first - place, .uh⟩ :: uh.head, first := place,
                                     alloc := uh.alloc + 1 } 0 1 hrun hbits (Or.inr ⟨rfl, rfl⟩) with
      ⟨uh', hfree, hs, hu, hl, hh⟩
    refine ⟨uh', ?_, hs, ?_, hl, hh⟩
    · rw [if_pos hbelow]
      exact hfree
    · rw [hu, hunits]
      rfl
  rw [if_neg hbelow]
  have hin : (bits uh.head)[place - uh.first]? = some true := by
    rw [units, List.append_assoc, List.getElem?_append_right (by
      rw [List.length_replicate]; omega), List.length_replicate] at halloc
    by_cases hlt : place - uh.first < (bits uh.head).length
    · rwa [List.getElem?_append_left hlt] at halloc
    · rw [List.getElem?_append_right (by omega), List.getElem?_replicate] at halloc
      split at halloc <;> cases halloc
  have hfree := freeInList_spec uh (place - uh.first) 2 h.list hin (Or.inl rfl)
  rwa [Nat.add_sub_cancel' (not_lt.mp hbelow)] at hfree

end FreeBSDKern.Unit
