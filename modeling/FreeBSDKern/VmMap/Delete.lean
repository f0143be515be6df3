import FreeBSDKern.VmMap.Clip

/-!
# Deleting a Range

`vm_map_delete` cuts the entry that contains the start of the range, then walks
the list, cutting the last entry at the end of the range and deleting what lies
between. The walk is over a list it is changing, so its invariant is about the
list as it is at each turn: what is in front of the walk ends by the start of the
range, and the rest begins no earlier.

The size of a well-formed map is the number of addresses it maps
(`size_eq_card`), so what deleting does to the size follows from what it does to
the meaning.

## Main definitions

* `Settled`: No entry has to be waited for.
* `mappedIn`: The number of addresses mapped in a range.

## Theorems

* `entryDelete_spec`: Deleting one entry.
* `deleteLoop_spec`: The walk.
* `vm_map_delete_exact`: A range is deleted and nothing else.
-/

namespace FreeBSDKern.VmMap

open Lib

section entryDelete

variable {m : Map} {pre post : List Nat} {i : Nat}

/-- A map without one of its entries. -/
structure Removed (m m' : Map) (pre post : List Nat) (i : Nat) : Prop where
  wf : Wf m'
  list : m'.list = pre ++ post
  other : ∀ j, j ≠ i → m'.entry j = m.entry j
  minOffset : m'.minOffset = m.minOffset
  maxOffset : m'.maxOffset = m.maxOffset
  kernelPmap : m'.kernelPmap = m.kernelPmap
  fresh : m'.fresh = m.fresh
  freshObj : m'.freshObj = m.freshObj

/-- Deleting one entry keeps the map well formed and the others as they are. -/
theorem entryDelete_spec (h : Wf m) (env : Env) (hlist : m.list = pre ++ i :: post) :
    Removed m (m.entryDelete env i) pre post i := by
  have hi : i ∈ m.list := by simp [hlist]
  rcases entryUnlink_spec h.tree h.laid hlist (fun j hj _ _ => h.gaps j hj) with
    ⟨adj, t, hunlink, htree, hgaps⟩
  set m₁ : Map := { m.withTree (pre ++ post) adj t with
    size := m.size - ((m.entry i).stop - (m.entry i).start) } with hm₁
  have hwf : Wf m₁ := by
    refine ⟨⟨htree.nodup, htree.inorder, htree.maxOk, htree.count, htree.fresh⟩,
      (h.laid.erase hlist).congr (fun _ _ => rfl) rfl rfl, fun j hj => ?_, ?_, h.limit⟩
    · exact (hgaps j hj (by simp)).congr rfl rfl rfl rfl
    have hold := h.size
    rw [hlist, mapped_append, mapped_cons] at hold
    have hnew : mapped m₁ m₁.list = mapped m pre + mapped m post := mapped_append m pre post
    rw [hnew]
    show m.size - _ = _
    omega
  have hne : ∀ j ∈ pre ++ post, j ≠ i := by
    rintro j hj rfl
    exact notMem_rest (hlist ▸ h.tree.nodup) hj
  have hdel : m.entryDelete env i = (m.entry i).object.elim m₁ (fun o =>
      if (m.entry i).eflags.isSubMap then m₁.setEntry i { m.entry i with object := none }
      else m₁.setObj o (Map.deleteObject env (m.entry i) (m₁.obj o))) := by
    rw [Map.entryDelete, hunlink]
    cases (m.entry i).object <;> rfl
  rw [hdel]
  have hplain : Removed m m₁ pre post i := ⟨hwf, rfl, fun _ _ => rfl, rfl, rfl, rfl, rfl, rfl⟩
  cases (m.entry i).object with
  | none => exact hplain
  | some o =>
  rw [Option.elim_some]
  split
  case isTrue =>
    refine ⟨hwf.same ⟨rfl, rfl, rfl, rfl, rfl, rfl, rfl, rfl, fun j hj => ?_, fun j hj => ?_⟩,
      rfl, fun j hj => setEntry_entry_of_ne m₁ _ hj, rfl, rfl, rfl, rfl, rfl⟩
    · rw [setEntry_entry_of_ne m₁ _ (hne j hj)]
    · rw [setEntry_entry_of_ne m₁ _ (hne j hj)]
  case isFalse => exact ⟨hwf.withObj _, rfl, fun _ _ => rfl, rfl, rfl, rfl, rfl, rfl⟩

variable {m' m : Map} {lo hi : Nat}

/-- Nothing is mapped any more where the entry was, and elsewhere all is as
    before. -/
theorem Removed.look (hr : Removed m m' pre post i) (h : Wf m) (hlist : m.list = pre ++ i :: post)
    (a : Nat) : m'.look a = if (m.entry i).contains a then none else m.look a := by
  have hi : i ∈ m.list := by simp [hlist]
  have hnot : i ∉ pre ++ post := notMem_rest (hlist ▸ h.tree.nodup)
  have hother : ∀ j ∈ pre ++ post, m'.entry j = m.entry j := by
    intro j hj
    refine hr.other j ?_
    rintro rfl
    exact hnot hj
  split
  case isTrue hin =>
    refine look_eq_none fun j hj hja => ?_
    rw [hr.list] at hj
    rw [hother j hj] at hja
    have hmem : j ∈ m.list := by
      rw [hlist, List.mem_append, List.mem_cons]
      exact (List.mem_append.mp hj).imp_right .inr
    have hji := h.laid.eq_of_contains hmem hi hja (contains_iff.mp hin)
    exact hnot (hji ▸ hj)
  case isFalse hout =>
  have hmap : ∀ l : List Nat, (∀ j ∈ l, j ∈ pre ++ post) → l.map m'.entry = l.map m.entry :=
    fun l hl => List.map_congr_left fun j hj => hother j (hl j hj)
  rw [look_split hlist, lookIn_append, lookIn_cons, if_neg hout, Map.look, Map.entries, hr.list,
    List.map_append, lookIn_append, hmap pre (fun j hj => List.mem_append_left _ hj),
    hmap post (fun j hj => List.mem_append_right _ hj)]

end entryDelete

/-! ## The size of a map -/

/-- The addresses some entries contain. -/
def covered (m : Map) (l : List Nat) (lo hi : Nat) : Finset Nat :=
  (Finset.Ico lo hi).filter fun a => ∃ i ∈ l, (m.entry i).start ≤ a ∧ a < (m.entry i).stop

theorem mapped_eq_card {l : List Nat} (h : Laid m l) :
    mapped m l = (covered m l m.minOffset m.maxOffset).card := by
  induction l with
  | nil => simp [mapped, covered]
  | cons i l ih =>
    have hl := ih (h.sublist (List.sublist_cons_self i l))
    have hlo := h.low i (by simp)
    have hhi := h.high i (by simp)
    have hafter := (List.pairwise_cons.mp h.ordered).1
    have hunion : covered m (i :: l) m.minOffset m.maxOffset
        = Finset.Ico (m.entry i).start (m.entry i).stop
          ∪ covered m l m.minOffset m.maxOffset := by
      ext a
      simp only [covered, Finset.mem_filter, Finset.mem_Ico, Finset.mem_union, List.mem_cons,
        exists_eq_or_imp]
      constructor
      · rintro ⟨hr, ha | ha⟩
        · exact .inl ha
        · exact .inr ⟨hr, ha⟩
      rintro (ha | ⟨hr, ha⟩)
      · exact ⟨by omega, .inl ha⟩
      · exact ⟨hr, .inr ha⟩
    have hdisj : Disjoint (Finset.Ico (m.entry i).start (m.entry i).stop)
        (covered m l m.minOffset m.maxOffset) := by
      rw [Finset.disjoint_left]
      intro a ha hc
      rcases (Finset.mem_filter.mp hc).2 with ⟨j, hj, hja⟩
      have := hafter j hj
      have := Finset.mem_Ico.mp ha
      omega
    rw [mapped_cons, hl, hunion, Finset.card_union_of_disjoint hdisj, Nat.card_Ico]

/-- The number of addresses mapped in a range. -/
def mappedIn (m : Map) (lo hi : Nat) : Nat :=
  ((Finset.Ico lo hi).filter fun a => (m.look a).isSome).card

theorem look_isSome (h : Laid m m.list) (a : Nat) :
    (m.look a).isSome ↔ ∃ i ∈ m.list, (m.entry i).start ≤ a ∧ a < (m.entry i).stop := by
  constructor
  · intro hsome
    rcases Option.isSome_iff_exists.mp hsome with ⟨v, hv⟩
    rcases exists_of_look hv with ⟨i, hi, ha, -⟩
    exact ⟨i, hi, ha⟩
  rintro ⟨i, hi, ha⟩
  rw [look_of_mem h hi ha]
  rfl

/-- The size of a map is the number of addresses it maps. -/
theorem size_eq_card (h : Wf m) : m.size = mappedIn m m.minOffset m.maxOffset := by
  rw [h.size, mapped_eq_card h.laid, covered, mappedIn]
  congr 1
  ext a
  simp only [Finset.mem_filter, look_isSome h.laid]

/-! ## The walk -/

/-- No entry of a list has to be waited for. -/
def Settled (m : Map) (l : List Nat) : Prop :=
  ∀ i ∈ l, m.mustWait (m.entry i) = false

theorem mustWait_copy {m m' : Map} {e e' : Entry} (hc : Copy e e')
    (hk : m'.kernelPmap = m.kernelPmap) : m'.mustWait e' = m.mustWait e := by
  rw [Map.mustWait, Map.mustWait, systemWiredCount, systemWiredCount, hk, hc]

/-- The entry about to be deleted: its pages are unwired and unmapped. -/
def Map.unmapEntry (m : Map) (i : Nat) : Map :=
  let m := if (m.entry i).wiredCount ≠ 0 then m.entryUnwire i else m
  m.pmapRemove (m.entry i).start (m.entry i).stop

theorem unmapEntry_eq (m : Map) (i : Nat) :
    ∃ w n, m.unmapEntry i = { m.setEntry i { m.entry i with wiredCount := n } with wired := w } := by
  rw [Map.unmapEntry]
  by_cases hw : (m.entry i).wiredCount ≠ 0
  · refine ⟨((m.entryUnwire i).pmapRemove (m.entry i).start (m.entry i).stop).wired, 0, ?_⟩
    rw [if_pos hw]
    have he : ((m.entryUnwire i).entry i).start = (m.entry i).start ∧
        ((m.entryUnwire i).entry i).stop = (m.entry i).stop := by
      simp [Map.entryUnwire]
    rw [he.1, he.2]
    rfl
  refine ⟨(m.pmapRemove (m.entry i).start (m.entry i).stop).wired, (m.entry i).wiredCount, ?_⟩
  rw [if_neg hw]
  simp only [Map.pmapRemove, Map.setEntry, Function.update_eq_self]

/-- What deleting a range from `lo` to `hi` does. -/
structure Deleted (m m' : Map) (lo hi : Nat) (base : Nat → Nat) : Prop where
  wf : Wf m'
  minOffset : m'.minOffset = m.minOffset
  maxOffset : m'.maxOffset = m.maxOffset
  freshObj : m.freshObj ≤ m'.freshObj
  gone : ∀ a, lo ≤ a → a < hi → m'.look a = none
  kept : ∀ a, a < lo ∨ hi ≤ a → SameAt m.freshObj m'.freshObj base a (m.look a) (m'.look a)

/-- A map that maps nothing in the range already. -/
theorem Deleted.refl {pre rest : List Nat} (h : Wf m) (hlist : m.list = pre ++ rest)
    (hpre : ∀ i ∈ pre, (m.entry i).stop ≤ lo) (hrest : ∀ i ∈ rest, hi ≤ (m.entry i).start) :
    Deleted m m lo hi (fun _ => 0) := by
  exact ⟨h, rfl, rfl, le_refl _, fun _ => look_between hlist hpre hrest, fun a _ => .kept _⟩

/-- Deleting a first part and then the rest. -/
theorem Deleted.after {m₁ m₂ : Map} {base' : Nat → Nat} (base : Nat → Nat)
    (hmin : m₁.minOffset = m.minOffset) (hmax : m₁.maxOffset = m.maxOffset)
    (hf : m.freshObj ≤ m₁.freshObj)
    (hkept : ∀ a, a < lo ∨ hi ≤ a → SameAt m.freshObj m₁.freshObj base a (m.look a) (m₁.look a))
    (h : Deleted m₁ m₂ lo hi base') : Deleted m m₂ lo hi (joinBase m₁.freshObj base base') :=
  ⟨h.wf, h.minOffset.trans hmin, h.maxOffset.trans hmax, hf.trans h.freshObj, h.gone,
    fun a ha => (hkept a ha).trans (h.kept a ha) hf h.freshObj⟩

theorem deleteLoop_step (env : Env) {stop fuel i : Nat} (hlt : (m.entry i).start < stop)
    (hwait : m.mustWait (m.entry i) = false) : Map.deleteLoop env stop (fuel + 1) m (some i) =
      Map.deleteLoop env stop fuel (((m.clipEnd i stop).unmapEntry i).entryDelete env i)
        (next? (m.clipEnd i stop).list i) := by
  rw [Map.deleteLoop, if_pos hlt, if_neg (by simp [hwait])]
  rfl

theorem deleteLoop_done (env : Env) {stop fuel i : Nat} (hge : stop ≤ (m.entry i).start) :
    Map.deleteLoop env stop (fuel + 1) m (some i) = some m := by
  rw [Map.deleteLoop, if_neg (by omega)]

section walk

variable {m : Map} {pre post : List Nat} {i : Nat}

/-- An entry is unmapped and deleted. -/
theorem deleteOne_spec (h : Wf m) (env : Env) (hlist : m.list = pre ++ i :: post) :
    Removed m ((m.unmapEntry i).entryDelete env i) pre post i := by
  rcases unmapEntry_eq m i with ⟨w, n, heq⟩
  rw [heq]
  set m₁ : Map := { m.setEntry i { m.entry i with wiredCount := n } with wired := w }
  have hent : ∀ j, j ≠ i → m₁.entry j = m.entry j := fun j hj => setEntry_entry_of_ne m _ hj
  have hself : m₁.entry i = { m.entry i with wiredCount := n } := setEntry_entry_self m i _
  have hsame : Same m m₁ := by
    refine ⟨rfl, rfl, rfl, rfl, rfl, rfl, rfl, rfl, fun j _ => ?_, fun j _ => ?_⟩
    · by_cases hji : j = i
      · rw [hji, hself]
      · rw [hent j hji]
    by_cases hji : j = i
    · rw [hji, hself]
    · rw [hent j hji]
  have hr := entryDelete_spec (h.same hsame) env (m := m₁) hlist
  exact ⟨hr.wf, hr.list, fun j hj => (hr.other j hj).trans (hent j hj), hr.minOffset, hr.maxOffset,
    hr.kernelPmap, hr.fresh, hr.freshObj⟩

/-- An entry that begins before an address, cut there if it reaches beyond. -/
theorem clipEnd_spec (h : Wf m) (hlist : m.list = pre ++ i :: post) (hlt : (m.entry i).start < hi) :
    (m.clipEnd i hi = m ∧ (m.entry i).stop ≤ hi) ∨ (Clipped m (m.clipEnd i hi) i (m.entry i).start ∧
        (m.clipEnd i hi).list = pre ++ i :: m.fresh :: post ∧
        ((m.clipEnd i hi).entry i).start = (m.entry i).start ∧
        ((m.clipEnd i hi).entry i).stop = hi ∧ ((m.clipEnd i hi).entry m.fresh).start = hi ∧
        ((m.clipEnd i hi).entry m.fresh).stop = (m.entry i).stop) := by
  rw [Map.clipEnd]
  split
  case isTrue hcut => exact .inr (clipEndAt_spec h hlist ⟨hlt, hcut⟩)
  case isFalse hle => exact .inl ⟨rfl, by omega⟩

/-- The walk deletes what is left of the range: what is in front of it ends by the
    start of the range, and the rest begins no earlier. -/
theorem deleteLoop_spec (env : Env) (hi : Nat) :
    ∀ {fuel : Nat} {m : Map} {pre rest : List Nat}, Wf m → m.list = pre ++ rest →
      rest.length < fuel → (∀ j ∈ pre, (m.entry j).stop ≤ lo) →
      (∀ j ∈ rest, lo ≤ (m.entry j).start) → Settled m rest →
      ∃ m' base, Map.deleteLoop env hi fuel m rest.head? = some m' ∧ Deleted m m' lo hi base := by
  intro fuel
  induction fuel with
  | zero => intro m pre rest _ _ hfuel; omega
  | succ fuel ih =>
    intro m pre rest h hlist hfuel hpre hrest hset
    cases rest with
    | nil => exact ⟨m, fun _ => 0, by simp [Map.deleteLoop], .refl h hlist hpre (by simp)⟩
    | cons i rest =>
      rw [List.head?_cons]
      have hi' : i ∈ m.list := by simp [hlist]
      have haround := h.laid.around hlist
      have hloi := hrest i (by simp)
      by_cases hge : hi ≤ (m.entry i).start
      · -- The walk has come to the end of the range.
        refine ⟨m, fun _ => 0, deleteLoop_done env hge, .refl h hlist hpre fun j hj => ?_⟩
        rcases List.mem_cons.mp hj with hj | hj
        · rw [hj]
          exact hge
        have := haround.2 j hj
        have := h.laid.nonempty i hi'
        omega
      have hlt : (m.entry i).start < hi := by omega
      rw [deleteLoop_step env hlt (hset i (by simp))]
      rcases clipEnd_spec h hlist hlt with ⟨hsame, hle⟩ | ⟨hclip, hlist₁, hstart, hstop, hnew, -⟩
      · -- The entry lies in the range.
        rw [hsame, next?_of_split h.tree.nodup hlist]
        have hr := deleteOne_spec h env hlist
        have hne : ∀ j ∈ pre ++ rest, j ≠ i := by
          rintro j hj rfl
          exact notMem_rest (hlist ▸ h.tree.nodup) hj
        have hother : ∀ j ∈ pre ++ rest, ((m.unmapEntry i).entryDelete env i).entry j
            = m.entry j := fun j hj => hr.other j (hne j hj)
        rcases ih hr.wf hr.list (by simp at hfuel; omega)
          (fun j hj => by rw [hother j (by simp [hj])]; exact hpre j hj)
          (fun j hj => by rw [hother j (by simp [hj])]; exact hrest j (by simp [hj]))
          (fun j hj => by
            rw [hother j (by simp [hj]), Map.mustWait, hr.kernelPmap]
            exact hset j (by simp [hj])) with ⟨m', base, heq, hdel⟩
        refine ⟨m', _, heq, hdel.after (fun _ => 0) hr.minOffset hr.maxOffset
          hr.freshObj.ge fun a ha => .of_eq ?_⟩
        rw [hr.look h hlist, if_neg]
        intro hin
        have := contains_iff.mp hin
        omega
      -- The entry reaches beyond the range: what is beyond is a new entry.
      have hw₁ := hclip.wf
      rw [next?_of_split hw₁.tree.nodup hlist₁]
      have hr := deleteOne_spec hw₁ env hlist₁
      have hnodup : (pre ++ i :: m.fresh :: rest).Nodup := hlist₁ ▸ hw₁.tree.nodup
      have hne : ∀ j ∈ pre ++ m.fresh :: rest, j ≠ i := by
        rintro j hj rfl
        exact notMem_rest hnodup hj
      have hfresh : ∀ j ∈ pre ++ rest, j ≠ m.fresh := by
        rintro j hj rfl
        refine fresh_notMem h ?_
        rw [hlist, List.mem_append, List.mem_cons]
        exact (List.mem_append.mp hj).imp_right .inr
      have hother : ∀ j ∈ pre ++ rest,
          (((m.clipEnd i hi).unmapEntry i).entryDelete env i).entry j = m.entry j := by
        intro j hj
        have hji : j ≠ i := hne j (by
          rw [List.mem_append, List.mem_cons]
          exact (List.mem_append.mp hj).imp_right .inr)
        rw [hr.other j hji, hclip.other j hji (hfresh j hj)]
      have hnewStart : ((((m.clipEnd i hi).unmapEntry i).entryDelete env i).entry
          m.fresh).start = hi := by
        rw [hr.other _ (hne _ (by simp)), hnew]
      have hrest₁ : ∀ j ∈ m.fresh :: rest, hi ≤
          ((((m.clipEnd i hi).unmapEntry i).entryDelete env i).entry j).start := by
        intro j hj
        rcases List.mem_cons.mp hj with hj | hj
        · rw [hj, hnewStart]
        have hlaid := hr.wf.laid.around hr.list
        have := hlaid.2 j hj
        have hn := hr.wf.laid.nonempty m.fresh (by rw [hr.list]; simp)
        omega
      have hdel : Deleted _ _ lo hi _ := .refl hr.wf hr.list
        (fun j hj => by rw [hother j (by simp [hj])]; exact hpre j hj) hrest₁
      refine ⟨_, _, ?_, hdel.after (fun _ => (m.entry i).start)
        (hr.minOffset.trans hclip.minOffset) (hr.maxOffset.trans hclip.maxOffset)
        (hr.freshObj ▸ hclip.freshObj) fun a ha => ?_⟩
      · rw [List.head?_cons]
        cases fuel with
        | zero => simp at hfuel
        | succ fuel => exact deleteLoop_done env hnewStart.ge
      rw [hr.look hw₁ hlist₁, if_neg, hr.freshObj]
      · exact hclip.look a
      intro hin
      have := contains_iff.mp hin
      omega

end walk

/-! ## The whole call -/

/-- Where the walk starts: everything in front of it ends by the start of the
    range. -/
structure Started (m m' : Map) (lo : Nat) (pre rest : List Nat) (base : Nat → Nat) : Prop where
  wf : Wf m'
  list : m'.list = pre ++ rest
  before : ∀ j ∈ pre, (m'.entry j).stop ≤ lo
  behind : ∀ j ∈ rest, lo ≤ (m'.entry j).start
  copied : ∀ j ∈ rest, ∃ i ∈ m.list, Copy (m.entry i) (m'.entry j)
  kernelPmap : m'.kernelPmap = m.kernelPmap
  minOffset : m'.minOffset = m.minOffset
  maxOffset : m'.maxOffset = m.maxOffset
  freshObj : m.freshObj ≤ m'.freshObj
  look : ∀ a, SameAt m.freshObj m'.freshObj base a (m.look a) (m'.look a)

/-- Nothing is in transition or wired behind the start, when nothing was. -/
theorem Started.settled {m m' : Map} {lo : Nat} {pre rest : List Nat} {base : Nat → Nat}
    (hst : Started m m' lo pre rest base) (hset : Settled m m.list) : Settled m' rest := by
  intro j hj
  rcases hst.copied j hj with ⟨i, hi, hcopy⟩
  rw [mustWait_copy hcopy hst.kernelPmap]
  exact hset i hi

theorem deleteFirst_spec (h : Wf m) (lo : Nat) :
    ∃ m' pre rest base, m.deleteFirst lo = (m', rest.head?) ∧ Started m m' lo pre rest base := by
  rcases lookup_spec h true lo with ⟨t, b, e, heq, hwf, hans⟩
  rw [Map.deleteFirst, heq]
  set m₀ : Map := { m with root := t }
  cases hans with
  | miss pre post hlist hpre hpost =>
    refine ⟨m₀, pre, post, fun _ => 0, ?_, hwf, hlist, hpre, fun j hj => (hpost j hj).le,
      fun j hj => ⟨j, by simp [hlist, hj], Copy.refl _⟩, rfl, rfl, rfl, le_refl _, fun a => .kept _⟩
    have hnext : m₀.nextOf pre.getLast? = post.head? := nextOf_split h.tree.nodup hlist
    cases hlast : pre.getLast? with
    | none | some p => rw [← hnext, hlast]
  | hit pre i post hlist hstart hstop =>
    have hlist₀ : m₀.list = pre ++ i :: post := hlist
    dsimp only
    rw [Map.clipStart]
    split
    case isFalse hge =>
      have hge' : lo ≤ (m₀.entry i).start := not_lt.mp hge
      refine ⟨m₀, pre, i :: post, fun _ => 0, rfl, hwf, hlist₀, fun j hj => ?_,
        hwf.laid.behind_of_split hlist₀ hge',
        fun j hj => ⟨j, by simp [hlist, List.mem_cons.mp hj], Copy.refl _⟩, rfl, rfl, rfl,
        le_refl _, fun a => .kept _⟩
      have := (hwf.laid.around hlist₀).1 j hj
      have : (m₀.entry i).start ≤ lo := hstart
      omega
    case isTrue hcut =>
    rcases clipStartAt_spec hwf hlist₀ ⟨hcut, hstop⟩ with
      ⟨pre', post', e, hsimp, hclip, hl, -, hnewStop, hselfStart, -⟩
    have hl' : (m₀.clipStartAt i lo).list = pre' ++ m₀.fresh :: (i :: post') := hl
    have hl'' : (m₀.clipStartAt i lo).list = (pre' ++ [m₀.fresh]) ++ i :: post' := by
      simpa using hl
    refine ⟨m₀.clipStartAt i lo, pre' ++ [m₀.fresh], i :: post', fun _ => e.start, rfl,
      hclip.wf, hl'', hclip.wf.laid.before_of_split hl' hnewStop.le,
      hclip.wf.laid.behind_of_split hl'' hselfStart.ge, fun j hj => ?_, hclip.kernelPmap,
      hclip.minOffset, hclip.maxOffset, hclip.freshObj, hclip.look⟩
    have himem : i ∈ m.list := by simp [hlist]
    rcases List.mem_cons.mp hj with hj | hj
    · rw [hj]
      exact ⟨i, himem, hclip.self⟩
    -- The entries behind are those behind before, or all but the first of them.
    have hjpost : j ∈ post := by
      rcases hsimp.back with hback | ⟨n, hback, -⟩
      · exact hback ▸ hj
      · rw [hback]
        exact List.mem_cons_of_mem n hj
    have hjmem : j ∈ m.list := by simp [hlist, hjpost]
    have hji : j ≠ i := by
      rintro rfl
      exact (List.nodup_cons.mp (List.nodup_append.mp
        (hlist₀ ▸ hwf.tree.nodup : (pre ++ j :: post).Nodup)).2.1).1 hjpost
    have hjn : j ≠ m₀.fresh := (hwf.tree.fresh j hjmem).ne
    refine ⟨j, hjmem, ?_⟩
    rw [hclip.other j hji hjn]
    exact Copy.refl _

/-- The number of addresses mapped in a range splits at any point of it. -/
theorem mappedIn_add (m : Map) {mid : Nat} (h₁ : lo ≤ mid) (h₂ : mid ≤ hi) :
    mappedIn m lo hi = mappedIn m lo mid + mappedIn m mid hi := by
  rw [mappedIn, ← Finset.Ico_union_Ico_eq_Ico h₁ h₂, Finset.filter_union,
    Finset.card_union_of_disjoint]
  · rfl
  · refine Finset.disjoint_filter_filter ?_
    exact Finset.Ico_disjoint_Ico_consecutive lo mid hi

theorem mappedIn_congr (h : ∀ a, lo ≤ a → a < hi → (m'.look a).isSome = (m.look a).isSome) :
    mappedIn m' lo hi = mappedIn m lo hi := by
  rw [mappedIn, mappedIn]
  congr 1
  refine Finset.filter_congr fun a ha => ?_
  have := Finset.mem_Ico.mp ha
  rw [h a this.1 this.2]

theorem SameAt.isSome {f f' : Nat} {base : Nat → Nat} {a : Nat} {v v' : Option View}
    (h : SameAt f f' base a v v') : v'.isSome = v.isSome := by
  cases h <;> rfl

/-- What deleting a range does to the number of addresses mapped. -/
theorem Deleted.size {base : Nat → Nat} (hd : Deleted m m' lo hi base) (h : Wf m) (hle : lo ≤ hi)
    (hlo : m.minOffset ≤ lo) (hhi : hi ≤ m.maxOffset) : m'.size + mappedIn m lo hi = m.size := by
  have hsame : ∀ {x y : Nat}, (∀ a, x ≤ a → a < y → a < lo ∨ hi ≤ a) →
      mappedIn m' x y = mappedIn m x y := by
    intro x y hout
    exact mappedIn_congr fun a h₁ h₂ => (hd.kept a (hout a h₁ h₂)).isSome
  have hnone : mappedIn m' lo hi = 0 := by
    rw [mappedIn, Finset.card_eq_zero, Finset.filter_eq_empty_iff]
    intro a ha
    have := Finset.mem_Ico.mp ha
    simp [hd.gone a this.1 this.2]
  rw [size_eq_card h, size_eq_card hd.wf, hd.minOffset, hd.maxOffset,
    mappedIn_add m hlo (hle.trans hhi), mappedIn_add m' hlo (hle.trans hhi),
    mappedIn_add m hle hhi, mappedIn_add m' hle hhi, hnone,
    hsame (fun a _ ha => .inl ha), hsame (fun a ha _ => .inr ha)]
  omega

theorem mapDelete_spec (h : Wf m) (env : Env) (lo hi : Nat) (hset : Settled m m.list) :
    ∃ m' base, m.mapDelete env lo hi = some m' ∧ Wf m' ∧
      (lo = hi ∧ m' = m ∨ Deleted m m' lo hi base) := by
  rw [Map.mapDelete]
  split
  case isTrue heq => exact ⟨m, fun _ => 0, rfl, h, .inl ⟨heq, rfl⟩⟩
  case isFalse =>
  rcases deleteFirst_spec h lo with ⟨m₁, pre, rest, base, hfirst, hst⟩
  rw [hfirst]
  have hlen : rest.length < m₁.list.length + 1 := by
    rw [hst.list, List.length_append]
    omega
  rcases deleteLoop_spec env hi hst.wf hst.list hlen hst.before hst.behind (hst.settled hset) with
    ⟨m', base', heq, hdel⟩
  exact ⟨m', _, heq, hdel.wf, .inr (hdel.after base hst.minOffset hst.maxOffset hst.freshObj
    fun a _ => hst.look a)⟩

/-- Deleting a range of a map in which nothing is in transition or wired by the
    system: no entry meets the range afterwards, every address outside means what
    it did, the size falls by the number of addresses that were mapped in the
    range, and the map is well formed. -/
theorem vm_map_delete_exact (m : Map) (h : Wf m) (env : Env) (start stop : Nat)
    (hle : start ≤ stop) (hlo : m.minOffset ≤ start) (hhi : stop ≤ m.maxOffset)
    (hset : ∀ i ∈ m.list, (m.entry i).eflags.inTransition = false ∧
      systemWiredCount (m.entry i) = 0) :
    ∃ m' base, m.mapDelete env start stop = some m' ∧ Wf m' ∧
      (∀ i ∈ m'.list, ∀ a, start ≤ a → a < stop → (m'.entry i).contains a = false) ∧
      (∀ a, a < start ∨ stop ≤ a → SameAt m.freshObj m'.freshObj base a (m.look a) (m'.look a)) ∧
      m'.size + mappedIn m start stop = m.size := by
  have hsettled : Settled m m.list := by
    intro i hi
    simp [Map.mustWait, (hset i hi).1, (hset i hi).2]
  rcases mapDelete_spec h env start stop hsettled with
    ⟨m', base, heq, hwf, ⟨hempty, hm'⟩ | hdel⟩
  · -- The range is empty.
    refine ⟨m', base, heq, hwf, fun i _ a h₁ h₂ => ?_, fun a _ => .of_eq (by rw [hm']), ?_⟩
    · omega
    have hzero : mappedIn m start stop = 0 := by simp [mappedIn, hempty]
    rw [hm', hzero]
    rfl
  refine ⟨m', base, heq, hwf, fun i hi a h₁ h₂ => ?_, hdel.kept, hdel.size h hle hlo hhi⟩
  by_contra hin
  have hcontains : (m'.entry i).contains a = true := by simpa using hin
  have hnone := hdel.gone a h₁ h₂
  rw [look_of_mem hwf.laid hi (contains_iff.mp hcontains)] at hnone
  cases hnone

/-- The second half of the first page and the first half of the second are
    deleted. -/
theorem vm_map_delete_exact_sample :
    ∃ m' base, sample.mapDelete plainEnv 10240 18432 = some m' ∧ Wf m' ∧
      (∀ i ∈ m'.list, ∀ a, 10240 ≤ a → a < 18432 → (m'.entry i).contains a = false) ∧
      (∀ a, a < 10240 ∨ 18432 ≤ a →
        SameAt sample.freshObj m'.freshObj base a (sample.look a) (m'.look a)) ∧
      m'.size + mappedIn sample 10240 18432 = sample.size :=
  vm_map_delete_exact sample sample_wf plainEnv 10240 18432 (by decide) (by decide) (by decide)
    (by decide)

end FreeBSDKern.VmMap
