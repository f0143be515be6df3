import FreeBSDKern.VmMap.View

/-!
# Merging Entries

`vm_map_simplify_entry` merges an entry with either neighbour when the two map
one range of one object alike. Each merge takes the neighbour out of the list and
the tree, widens the entry in place, and repairs the one gap that the widening
left stale.

Two neighbours that can be merged agree in every attribute and continue each
other's backing, so the merged entry means at every address what the two did.

## Theorems

* `mergePrev_spec`, `mergeNext_spec`: What each merge does.
* `simplifyEntry_spec`: What is left of the list, and that the meaning is kept.
-/

namespace FreeBSDKern.VmMap

open Lib Function

section place

variable {m : Map} {pre post : List Nat} {i : Nat} {e : Entry}

@[simp] theorem setEntry_entry_self (m : Map) (i : Nat) (e : Entry) :
    (m.setEntry i e).entry i = e := update_self ..

variable {i : Nat} {l pre post : List Nat} {m : Map} {lower upper whole e : Entry}

theorem setEntry_entry_of_ne (m : Map) (e : Entry) {j : Nat} (h : j ≠ i) :
    (m.setEntry i e).entry j = m.entry j := update_of_ne h ..

/-- Put an entry between two parts of an address order. -/
theorem Laid.insert (h : Laid m (pre ++ post)) (hi : i ∉ pre ++ post) (hne : e.start < e.stop)
    (hpre : ∀ j ∈ pre, (m.entry j).stop ≤ e.start) (hpost : ∀ j ∈ post, e.stop ≤ (m.entry j).start)
    (hlo : m.minOffset ≤ e.start) (hhi : e.stop ≤ m.maxOffset) :
    Laid (m.setEntry i e) (pre ++ i :: post) := by
  have hother : ∀ j ∈ pre ++ post, (m.setEntry i e).entry j = m.entry j := by
    intro j hj
    exact setEntry_entry_of_ne m e fun heq => hi (heq ▸ hj)
  have hkeep : Laid (m.setEntry i e) (pre ++ post) := h.congr hother rfl rfl
  have hall : ∀ {P : Nat → Prop}, P i → (∀ j ∈ pre ++ post, P j) → ∀ j ∈ pre ++ i :: post, P j := by
    intro P hPi hP j hj
    by_cases hji : j = i
    · rw [hji]
      exact hPi
    · exact hP j (by simpa [hji] using hj)
  refine ⟨?_, hall ?_ hkeep.nonempty, hall ?_ hkeep.low, hall ?_ hkeep.high⟩
  · have hp := List.pairwise_append.mp hkeep.ordered
    refine List.pairwise_append.mpr ⟨hp.1, List.pairwise_cons.mpr ⟨?_, hp.2.1⟩, ?_⟩
    · intro j hj
      rw [setEntry_entry_self, hother j (by simp [hj])]
      exact hpost j hj
    intro j hj k hk
    rcases List.mem_cons.mp hk with hk | hk
    · rw [hk, setEntry_entry_self, hother j (by simp [hj])]
      exact hpre j hj
    · exact hp.2.2 j hj k hk
  · rwa [setEntry_entry_self]
  · rwa [setEntry_entry_self]
  · rwa [setEntry_entry_self]

section

variable (h : Laid m l) (hlist : l = pre ++ i :: post)
include h hlist

/-- What lies before and behind an entry of an address order. -/
theorem Laid.around :
    (∀ j ∈ pre, (m.entry j).stop ≤ (m.entry i).start) ∧
      ∀ j ∈ post, (m.entry i).stop ≤ (m.entry j).start := by
  have hord := h.ordered
  rw [hlist] at hord
  have hp := List.pairwise_append.mp hord
  exact ⟨fun j hj => hp.2.2 j hj i (by simp), (List.pairwise_cons.mp hp.2.1).1⟩

theorem Laid.before_of_split {lo : Nat}
    (hlo : (m.entry i).stop ≤ lo) : ∀ j ∈ pre ++ [i], (m.entry j).stop ≤ lo := by
  intro j hj
  rcases List.mem_append.mp hj with hj | hj
  · have := (h.around hlist).1 j hj
    have := h.nonempty i (by simp [hlist])
    omega
  · rw [List.mem_singleton.mp hj]
    exact hlo

theorem Laid.behind_of_split {lo : Nat}
    (hlo : lo ≤ (m.entry i).start) : ∀ j ∈ i :: post, lo ≤ (m.entry j).start := by
  intro j hj
  rcases List.mem_cons.mp hj with hj | hj
  · rw [hj]
    exact hlo
  have := (h.around hlist).2 j hj
  have := h.nonempty i (by simp [hlist])
  omega

theorem Laid.erase : Laid m (pre ++ post) := by
  refine h.sublist ?_
  rw [hlist]
  exact (List.sublist_cons_self i post).append_left pre

end

theorem notMem_rest (h : (pre ++ i :: post).Nodup) : i ∉ pre ++ post :=
  (List.nodup_cons.mp (List.nodup_middle.mp h)).1

/-- Only the entry before another has it as its successor. -/
theorem last_of_next? (h : (pre ++ i :: post).Nodup) {j : Nat}
    (hj : next? (pre ++ i :: post) j = some i) (hmem : j ∈ pre ++ i :: post) :
    pre.getLast? = some j := by
  have hi := notMem_rest h
  by_cases hlast : pre.getLast? = some j
  · exact hlast
  exfalso
  by_cases hji : j = i
  · rw [hji, next?_split _ _ _ (notMem_front h)] at hj
    exact hi (List.mem_append_right pre (List.mem_of_mem_head? hj))
  · rw [next?_insert h (by simpa [hji] using hmem) hlast] at hj
    exact hi (mem_of_next? hj)

/-- Moving the start of an entry leaves the gap before it stale. -/
theorem GapsBut.setStart (hg : GapsBut m none) (hlist : m.list = pre ++ i :: post)
    (hnodup : m.list.Nodup) (he : e.stop = (m.entry i).stop) :
    GapsBut (m.setEntry i e) pre.getLast? := by
  intro j hj hlast
  have hj' : j ∈ m.list := hj
  have hgap := hg j hj' (by simp)
  have hstop : ((m.setEntry i e).entry j).stop = (m.entry j).stop := by
    by_cases hji : j = i
    · rw [hji, setEntry_entry_self, he]
    · rw [setEntry_entry_of_ne m e hji]
  rw [GapOk] at hgap ⊢
  rw [hstop, Map.setEntry_adjFree, hgap, Map.nextStart, Map.nextStart, Map.setEntry_list]
  cases hn : next? m.list j with
  | none => rfl
  | some k =>
    have hki : k ≠ i := by
      rintro rfl
      rw [hlist] at hn hj' hnodup
      exact hlast (last_of_next? hnodup hn hj')
    dsimp only
    rw [setEntry_entry_of_ne m e hki]

/-- Moving the end of an entry leaves the gap behind it stale. -/
theorem GapsBut.setStop (hg : GapsBut m none) (he : e.start = (m.entry i).start) :
    GapsBut (m.setEntry i e) (some i) := by
  intro j hj hji
  have hgap := hg j hj (by simp)
  have hstart : ∀ k, ((m.setEntry i e).entry k).start = (m.entry k).start := by
    intro k
    by_cases hki : k = i
    · rw [hki, setEntry_entry_self, he]
    · rw [setEntry_entry_of_ne m e hki]
  rw [GapOk] at hgap ⊢
  rw [setEntry_entry_of_ne m e (fun heq => hji (by rw [heq])), Map.setEntry_adjFree, hgap,
    Map.nextStart, Map.nextStart, Map.setEntry_list]
  cases hn : next? m.list j with
  | none => rfl
  | some k =>
    dsimp only
    rw [hstart k]

/-- The tree never reads an entry. -/
theorem TreeOk.setEntry (h : TreeOk m) (i : Nat) (e : Entry) : TreeOk (m.setEntry i e) :=
  ⟨h.nodup, h.inorder, h.maxOk, h.count, h.fresh⟩

theorem mapped_append (m : Map) (l₁ l₂ : List Nat) :
    mapped m (l₁ ++ l₂) = mapped m l₁ + mapped m l₂ := by
  simp [mapped]

theorem mapped_cons (m : Map) (i : Nat) (l : List Nat) :
    mapped m (i :: l) = ((m.entry i).stop - (m.entry i).start) + mapped m l := by
  simp [mapped]

/-- The bytes mapped only depend on where the entries are. -/
theorem mapped_congr {m' : Map} (h : ∀ i ∈ l, m'.entry i = m.entry i) :
    mapped m' l = mapped m l := by
  rw [mapped, mapped]
  congr 1
  exact List.map_congr_left fun i hi => by rw [h i hi]

theorem mapped_setEntry (hi : i ∉ pre ++ post) : mapped (m.setEntry i e) (pre ++ i :: post)
      = mapped m pre + ((e.stop - e.start) + mapped m post) := by
  rw [mapped_append, mapped_cons, setEntry_entry_self]
  have hpre : ∀ j ∈ pre, (m.setEntry i e).entry j = m.entry j := by
    intro j hj
    exact setEntry_entry_of_ne m e fun heq => hi (by simp [← heq, hj])
  have hpost : ∀ j ∈ post, (m.setEntry i e).entry j = m.entry j := by
    intro j hj
    exact setEntry_entry_of_ne m e fun heq => hi (by simp [← heq, hj])
  rw [mapped_congr hpre, mapped_congr hpost]

end place

/-! ## Two entries that are one -/

/-- Two neighbouring entries mean together what a third one does. -/
structure Joins (lower upper whole : Entry) : Prop where
  meet : lower.stop = upper.start
  start : whole.start = lower.start
  stop : whole.stop = upper.stop
  lower_le : lower.start ≤ lower.stop
  upper_le : upper.start ≤ upper.stop
  below : ∀ a, lower.start ≤ a → a < lower.stop → whole.view a = lower.view a
  above : ∀ a, upper.start ≤ a → a < upper.stop → whole.view a = upper.view a

theorem Joins.lookIn (h : Joins lower upper whole) (es fs : List Entry) (a : Nat) :
    lookIn (es ++ lower :: upper :: fs) a = lookIn (es ++ whole :: fs) a := by
  have hmeet := h.meet
  have hstart := h.start
  have hstop := h.stop
  have hlower := h.lower_le
  have hupper := h.upper_le
  rw [lookIn_append, lookIn_append, lookIn_cons, lookIn_cons, lookIn_cons]
  congr 1
  by_cases hl : lower.start ≤ a ∧ a < lower.stop
  · rw [if_pos (contains_iff.mpr hl), if_pos (contains_iff.mpr (by omega)), h.below a hl.1 hl.2]
  rw [if_neg (fun hc => hl (contains_iff.mp hc))]
  by_cases hu : upper.start ≤ a ∧ a < upper.stop
  · rw [if_pos (contains_iff.mpr hu), if_pos (contains_iff.mpr (by omega)), h.above a hu.1 hu.2]
  rw [if_neg (fun hc => hu (contains_iff.mp hc)), if_neg]
  intro hc
  have := contains_iff.mp hc
  omega

/-- The byte at an address does not depend on where its entry is taken to begin. -/
theorem offset_shift (o : BitVec 64) {s t a : Nat} (hst : s ≤ t) (hta : t ≤ a) :
    o + BitVec.ofNat 64 (t - s) + BitVec.ofNat 64 (a - t) = o + BitVec.ofNat 64 (a - s) := by
  rw [BitVec.add_assoc, ← BitVec.ofNat_add]
  congr 2
  omega

/-- Two entries that continue each other's backing and agree in the rest. -/
theorem joins_of_view (hmeet : lower.stop = upper.start) (hstart : whole.start = lower.start)
    (hstop : whole.stop = upper.stop) (hlower : lower.start ≤ lower.stop)
    (hupper : upper.start ≤ upper.stop) (hoffset : whole.offset = lower.offset)
    (hobject : whole.object = lower.object) (hobject' : whole.object = upper.object)
    (hcontinue : lower.object.isSome →
      upper.offset = lower.offset + BitVec.ofNat 64 (lower.stop - lower.start))
    (hattr : ∀ a, { whole.view a with backing := none } = { lower.view a with backing := none })
    (hattr' : ∀ a, { whole.view a with backing := none } = { upper.view a with backing := none }) :
    Joins lower upper whole := by
  have hview : ∀ {v w : View}, { v with backing := none } = { w with backing := none } →
      v.backing = w.backing → v = w := by
    rintro ⟨⟩ ⟨⟩ h hb
    simp_all
  refine ⟨hmeet, hstart, hstop, hlower, hupper, fun a hlo hhi => hview (hattr a) ?_,
    fun a hlo hhi => hview (hattr' a) ?_⟩
  · simp only [Entry.view, hobject, hoffset, hstart]
  simp only [Entry.view, hobject', hoffset, hstart]
  cases ho : upper.object with
  | none => rfl
  | some o =>
    have hsome : lower.object.isSome := by rw [← hobject, hobject', ho]; rfl
    simp only [Option.map_some, hcontinue hsome, ← hmeet]
    rw [offset_shift _ hlower (by omega)]

theorem mergeable_iff : mergeable lower upper = true ↔
    lower.stop = upper.start ∧ lower.object = upper.object ∧ (lower.object = none ∨
        lower.offset + BitVec.ofNat 64 (lower.stop - lower.start) = upper.offset) ∧
      lower.eflags = upper.eflags ∧ lower.protection = upper.protection ∧
      lower.maxProtection = upper.maxProtection ∧ lower.inheritance = upper.inheritance ∧
      lower.wiredCount = upper.wiredCount ∧ lower.cred = upper.cred := by
  simp [mergeable, and_assoc]

/-- What merging is for: whichever of the two entries is kept and widened, it
    means what both did. -/
theorem joins_of_mergeable (hm : mergeable lower upper = true) (hlower : lower.start ≤ lower.stop)
    (hupper : upper.start ≤ upper.stop)
    (hwhole : whole = { upper with start := lower.start, offset := lower.offset } ∨
      whole = { lower with stop := upper.stop }) : Joins lower upper whole := by
  rcases mergeable_iff.mp hm with ⟨hmeet, ho, hoff, hf, hp, hmp, hin, hw, -⟩
  have hcontinue : lower.object.isSome →
      upper.offset = lower.offset + BitVec.ofNat 64 (lower.stop - lower.start) := by
    intro hsome
    rcases hoff with hoff | hoff
    · rw [hoff] at hsome
      cases hsome
    · exact hoff.symm
  rcases hwhole with rfl | rfl
  · refine joins_of_view hmeet rfl rfl hlower hupper rfl ho.symm rfl hcontinue ?_ fun _ => rfl
    intro a
    simp only [Entry.view, hf, hp, hmp, hin, hw]
  refine joins_of_view hmeet rfl rfl hlower hupper rfl rfl ho hcontinue (fun _ => rfl) ?_
  intro a
  simp only [Entry.view, hf, hp, hmp, hin, hw]

/-! ## The two merges -/

/-- One entry overwritten, another list, tree and objects; nothing else. -/
def Reshaped (m m' : Map) (l : List Nat) (i : Nat) (e : Entry) : Prop :=
  ∃ adj t b, m' = { (m.setEntry i e).withTree l adj t with obj := b }

namespace Reshaped

variable {m m' m'' : Map} {l l' : List Nat} {i : Nat} {e e' : Entry}

theorem list_eq (h : Reshaped m m' l i e) : m'.list = l := by
  rcases h with ⟨adj, t, b, rfl⟩
  rfl

theorem entry_eq (h : Reshaped m m' l i e) : m'.entry = update m.entry i e := by
  rcases h with ⟨adj, t, b, rfl⟩
  rfl

theorem size_eq (h : Reshaped m m' l i e) : m'.size = m.size := by
  rcases h with ⟨adj, t, b, rfl⟩
  rfl

theorem trans (h : Reshaped m m' l i e) (h' : Reshaped m' m'' l' i e') :
    Reshaped m m'' l' i e' := by
  rcases h with ⟨adj, t, b, rfl⟩
  rcases h' with ⟨adj', t', b', rfl⟩
  refine ⟨adj', t', b', ?_⟩
  simp only [Map.withTree, Map.setEntry, update_idem]

theorem refl (h : TreeOk m) (i : Nat) : Reshaped m m m.list i (m.entry i) := by
  refine ⟨m.adjFree, m.root, m.obj, ?_⟩
  simp only [Map.withTree, Map.setEntry, update_eq_self, ← h.count]

end Reshaped

theorem objectDeallocate_eq (m : Map) (o : Option Nat) :
    ∃ b, m.objectDeallocate o = { m with obj := b } := by
  cases o with
  | none => exact ⟨m.obj, rfl⟩
  | some o => exact ⟨_, rfl⟩

theorem Wf.withObj (h : Wf m) (b : Nat → Obj) : Wf { m with obj := b } :=
  h.same ⟨rfl, rfl, rfl, rfl, rfl, rfl, rfl, rfl, fun _ _ => rfl, fun _ _ => rfl⟩

section merge

variable {m : Map} {pre post : List Nat} {i p n : Nat}

/-- The entry `i` merged with the one before it. -/
def mergedPrev (m : Map) (i p : Nat) : Entry :=
  { m.entry i with start := (m.entry p).start, offset := (m.entry p).offset }

/-- The entry `i` merged with the one behind it. -/
def mergedNext (m : Map) (i n : Nat) : Entry :=
  { m.entry i with stop := (m.entry n).stop }

/-- A map that is well formed but for one stale gap, after that gap is recomputed. -/
theorem Wf.resizeFree (htree : TreeOk m) (hlaid : Laid m m.list) {q : Nat} (hq : q ∈ m.list)
    (hgaps : GapsBut m (some q)) (hsize : m.size = mapped m m.list)
    (hlimit : m.minOffset < 2 ^ 64 ∧ m.maxOffset < 2 ^ 64) :
    ∃ adj t, m.resizeFree q = m.withTree m.list adj t ∧ Wf (m.withTree m.list adj t) := by
  rcases resizeFree_spec htree hlaid hq hgaps with ⟨adj, t, heq, htree', hgaps'⟩
  exact ⟨adj, t, heq, htree', hlaid.congr (fun _ _ => rfl) rfl rfl,
    fun j hj => hgaps' j hj (by simp), hsize, hlimit⟩

theorem mergePrev_spec (h : Wf m) (hlist : m.list = pre ++ p :: i :: post)
    (hmeet : (m.entry p).stop = (m.entry i).start) :
    Reshaped m (m.mergePrev i p) (pre ++ i :: post) i (mergedPrev m i p) ∧
      Wf (m.mergePrev i p) := by
  have hlist' : m.list = (pre ++ [p]) ++ i :: post := by simpa using hlist
  have hpi := h.laid.around hlist
  have hii := h.laid.around hlist'
  have hp : p ∈ m.list := by simp [hlist]
  have hi : i ∈ m.list := by simp [hlist]
  have hnep := h.laid.nonempty p hp
  have hnei := h.laid.nonempty i hi
  have hlaid : Laid m (pre ++ i :: post) := h.laid.erase hlist
  have hnodup := hlaid.nodup
  rcases entryUnlink_spec h.tree h.laid hlist (fun j hj _ _ => h.gaps j hj) with
    ⟨adj, t, hunlink, htree, hgaps⟩
  -- After the unlink, the entry is widened to the front.
  have hlaid₂ : Laid (m.setEntry i (mergedPrev m i p)) (pre ++ i :: post) := by
    refine (hlaid.erase rfl).insert (notMem_rest hnodup) ?_ hpi.1 hii.2 (h.laid.low p hp)
      (h.laid.high i hi)
    simp only [mergedPrev]
    omega
  set m₂ := (m.withTree (pre ++ i :: post) adj t).setEntry i (mergedPrev m i p)
  have htree₂ : TreeOk m₂ := htree.setEntry _ _
  have hgaps₂ : GapsBut m₂ pre.getLast? := hgaps.setStart rfl hnodup rfl
  have hlaidm₂ : Laid m₂ m₂.list := hlaid₂.congr (fun _ _ => rfl) rfl rfl
  have hsize : m₂.size = mapped m₂ m₂.list := by
    have hmapped := mapped_setEntry (m := m) (e := mergedPrev m i p) (notMem_rest hnodup)
    have hm : mapped m₂ m₂.list = mapped (m.setEntry i (mergedPrev m i p)) (pre ++ i :: post) :=
      mapped_congr fun _ _ => rfl
    have hold := h.size
    rw [hlist, mapped_append, mapped_cons, mapped_cons] at hold
    rw [hm, hmapped]
    show m.size = _
    simp only [mergedPrev]
    omega
  have hprev : prev? m₂.list i = pre.getLast? := prev?_append hnodup
  have hdef : m.mergePrev i p = (pre.getLast?.elim m₂ m₂.resizeFree).objectDeallocate
      (m.entry p).object := by
    rw [← hprev, Map.mergePrev, hunlink]
    dsimp only
    split
    case h_1 hq => rw [show prev? m₂.list i = none from hq]; rfl
    case h_2 q hq => rw [show prev? m₂.list i = some q from hq]; rfl
  rcases objectDeallocate_eq (pre.getLast?.elim m₂ m₂.resizeFree) (m.entry p).object with ⟨b, hb⟩
  rw [hdef, hb]
  cases hlast : pre.getLast? with
  | none =>
    refine ⟨⟨adj, t, b, rfl⟩, Wf.withObj ⟨htree₂, hlaidm₂, fun j hj => ?_, hsize, h.limit⟩ b⟩
    exact hgaps₂ j hj (by simp [hlast])
  | some q =>
    have hq : q ∈ m₂.list := List.mem_append_left _ (List.mem_of_getLast? hlast)
    rw [hlast] at hgaps₂
    rcases Wf.resizeFree htree₂ hlaidm₂ hq hgaps₂ hsize h.limit with ⟨adj', t', heq, hwf⟩
    rw [Option.elim_some, heq]
    exact ⟨⟨adj', t', b, rfl⟩, hwf.withObj b⟩

theorem mergeNext_spec (h : Wf m) (hlist : m.list = pre ++ i :: n :: post)
    (hmeet : (m.entry i).stop = (m.entry n).start) :
    Reshaped m (m.mergeNext i n) (pre ++ i :: post) i (mergedNext m i n) ∧
      Wf (m.mergeNext i n) := by
  have hlist' : m.list = (pre ++ [i]) ++ n :: post := by simpa using hlist
  have hii := h.laid.around hlist
  have hni := h.laid.around hlist'
  have hn : n ∈ m.list := by simp [hlist]
  have hi : i ∈ m.list := by simp [hlist]
  have hnen := h.laid.nonempty n hn
  have hnei := h.laid.nonempty i hi
  have hlaid : Laid m (pre ++ i :: post) := by simpa using h.laid.erase hlist'
  have hnodup := hlaid.nodup
  rcases entryUnlink_spec h.tree h.laid hlist' (fun j hj _ _ => h.gaps j hj) with
    ⟨adj, t, hunlink, htree, hgaps⟩
  rw [List.append_assoc, List.singleton_append] at hunlink htree hgaps
  -- After the unlink, the entry is widened to the back.
  have hlaid₂ : Laid (m.setEntry i (mergedNext m i n)) (pre ++ i :: post) := by
    refine (hlaid.erase rfl).insert (notMem_rest hnodup) ?_ hii.1 hni.2 (h.laid.low i hi)
      (h.laid.high n hn)
    simp only [mergedNext]
    omega
  set m₂ := (m.withTree (pre ++ i :: post) adj t).setEntry i (mergedNext m i n)
  have htree₂ : TreeOk m₂ := htree.setEntry _ _
  have hgaps₂ : GapsBut m₂ (some i) := hgaps.setStop rfl
  have hlaidm₂ : Laid m₂ m₂.list := hlaid₂.congr (fun _ _ => rfl) rfl rfl
  have hsize : m₂.size = mapped m₂ m₂.list := by
    have hmapped := mapped_setEntry (m := m) (e := mergedNext m i n) (notMem_rest hnodup)
    have hm : mapped m₂ m₂.list = mapped (m.setEntry i (mergedNext m i n)) (pre ++ i :: post) :=
      mapped_congr fun _ _ => rfl
    have hold := h.size
    rw [hlist, mapped_append, mapped_cons, mapped_cons] at hold
    rw [hm, hmapped]
    show m.size = _
    simp only [mergedNext]
    omega
  have hdef : m.mergeNext i n = (m₂.resizeFree i).objectDeallocate (m.entry n).object := by
    rw [Map.mergeNext, hunlink]
    rfl
  have himem : i ∈ m₂.list := List.mem_append_cons_self
  rcases Wf.resizeFree htree₂ hlaidm₂ himem hgaps₂ hsize h.limit with ⟨adj', t', heq, hwf⟩
  rcases objectDeallocate_eq (m₂.resizeFree i) (m.entry n).object with ⟨b, hb⟩
  rw [hdef, hb, heq]
  exact ⟨⟨adj', t', b, rfl⟩, hwf.withObj b⟩

end merge

/-! ## Simplifying an entry -/

/-- Two entries agree in everything but where they are. -/
structure Alike (e f : Entry) : Prop where
  object : e.object = f.object
  eflags : e.eflags = f.eflags
  protection : e.protection = f.protection
  maxProtection : e.maxProtection = f.maxProtection
  inheritance : e.inheritance = f.inheritance
  wiredCount : e.wiredCount = f.wiredCount
  cred : e.cred = f.cred

theorem alike_of_mergeable {f : Entry} (h : mergeable e f = true) : Alike e f := by
  rcases mergeable_iff.mp h with ⟨-, ho, -, hf, hp, hm, hi, hw, hc⟩
  exact ⟨ho, hf, hp, hm, hi, hw, hc⟩

/-- The entry `i` may have been merged with the one before and the one behind:
    `e` is what it is now, between `pre'` and `post'`. -/
structure Simplified (m m' : Map) (pre : List Nat) (i : Nat) (post pre' post' : List Nat)
    (e : Entry) : Prop where
  wf : Wf m'
  reshaped : Reshaped m m' (pre' ++ i :: post') i e
  front : pre' = pre ∨ ∃ p, pre = pre' ++ [p] ∧ Alike (m.entry p) (m.entry i)
  back : post' = post ∨ ∃ n, post = n :: post' ∧ Alike (m.entry n) (m.entry i)
  look : ∀ a, m'.look a = m.look a
  kept : e = { m.entry i with start := e.start, stop := e.stop, offset := e.offset }
  start_le : e.start ≤ (m.entry i).start
  le_stop : (m.entry i).stop ≤ e.stop

/-- The meaning of a map split at an entry. -/
theorem look_split {m : Map} {pre post : List Nat} {i : Nat} (hlist : m.list = pre ++ i :: post)
    (a : Nat) : m.look a = lookIn (pre.map m.entry ++ m.entry i :: post.map m.entry) a := by
  rw [Map.look, Map.entries, hlist, List.map_append, List.map_cons]

theorem map_update {l : List Nat} {i : Nat} (hi : i ∉ l) (f : Nat → Entry) (e : Entry) :
    l.map (update f i e) = l.map f := by
  refine List.map_congr_left fun j hj => update_of_ne ?_ _ _
  rintro rfl
  exact hi hj

theorem Reshaped.look {m' : Map} (h : Reshaped m m' (pre ++ i :: post) i e) (hi : i ∉ pre ++ post)
    (a : Nat) : m'.look a = lookIn (pre.map m.entry ++ e :: post.map m.entry) a := by
  rw [look_split h.list_eq, h.entry_eq, update_self]
  rw [map_update (fun hin => hi (List.mem_append_left _ hin)),
    map_update (fun hin => hi (List.mem_append_right _ hin))]

/-- An entry written anew where it is has its new meaning at its own addresses, and
    nothing else has changed. -/
theorem look_setEntry (h : Wf m) (hi : i ∈ m.list) (hs : e.start = (m.entry i).start)
    (he : e.stop = (m.entry i).stop) (a : Nat) :
    (m.setEntry i e).look a = if e.contains a then some (e.view a) else m.look a := by
  have hself : (m.setEntry i e).entry i = e := setEntry_entry_self m i e
  split
  case isTrue hin =>
    rw [look_of_mem (h.same (.setEntry m hs he)).laid (i := i) hi, hself]
    rw [hself]
    exact contains_iff.mp hin
  case isFalse hout =>
  rcases List.append_of_mem hi with ⟨pre, post, hlist⟩
  have hnot : i ∉ pre ++ post := notMem_rest (hlist ▸ h.tree.nodup)
  have hlist' : (m.setEntry i e).list = pre ++ i :: post := hlist
  have hold : ¬(m.entry i).contains a = true := by
    rwa [contains_iff, ← hs, ← he, ← contains_iff]
  rw [look_split hlist' a, look_split hlist a, hself, Map.setEntry,
    map_update (fun hin => hnot (List.mem_append_left _ hin)),
    map_update (fun hin => hnot (List.mem_append_right _ hin)), lookIn_append, lookIn_append,
    lookIn_cons, lookIn_cons, if_neg hout, if_neg hold]

section simplify

variable {m : Map} {pre post : List Nat} {i : Nat}

section

variable (h : Wf m) (hlist : m.list = pre ++ i :: post)
include h hlist

theorem Simplified.refl :
    Simplified m m pre i post pre post (m.entry i) :=
  ⟨h, hlist ▸ Reshaped.refl h.tree i, .inl rfl, .inl rfl, fun _ => rfl, rfl, le_refl _, le_refl _⟩

theorem simplifyPrev_spec :
    ∃ pre' e, Simplified m (m.simplifyPrev i) pre i post pre' post e := by
  have hnodup : (pre ++ i :: post).Nodup := hlist ▸ h.tree.nodup
  have hprev : prev? m.list i = pre.getLast? := by rw [hlist, prev?_append hnodup]
  rw [Map.simplifyPrev, hprev]
  rcases List.eq_nil_or_concat pre with rfl | ⟨front, p, rfl⟩
  · exact ⟨[], m.entry i, Simplified.refl h hlist⟩
  rw [List.concat_eq_append, List.getLast?_concat]
  rw [List.concat_eq_append] at hlist
  dsimp only
  split
  case isFalse => exact ⟨front ++ [p], m.entry i, Simplified.refl h hlist⟩
  case isTrue hmerge =>
  have hlist' : m.list = front ++ p :: i :: post := by simpa using hlist
  have hmeet := (mergeable_iff.mp hmerge).1
  rcases mergePrev_spec h hlist' hmeet with ⟨hre, hwf⟩
  have hp : p ∈ m.list := by simp [hlist']
  have hi : i ∈ m.list := by simp [hlist']
  have hnep := h.laid.nonempty p hp
  have hnei := h.laid.nonempty i hi
  have hjoin := joins_of_mergeable hmerge hnep.le hnei.le (.inl rfl)
  refine ⟨front, mergedPrev m i p, hwf, hre, .inr ⟨p, rfl, alike_of_mergeable hmerge⟩, .inl rfl,
    fun a => ?_, rfl, ?_, le_refl _⟩
  · have hnot := notMem_rest (h.laid.erase hlist').nodup
    rw [hre.look hnot, look_split hlist', List.map_cons, hjoin.lookIn]
    rfl
  · simp only [mergedPrev]
    omega

theorem simplifyNext_spec :
    ∃ post' e, Simplified m (m.simplifyNext i) pre i post pre post' e := by
  have hnodup : (pre ++ i :: post).Nodup := hlist ▸ h.tree.nodup
  have hnext : next? m.list i = post.head? := by rw [hlist, next?_split _ _ _ (notMem_front hnodup)]
  rw [Map.simplifyNext, hnext]
  cases post with
  | nil => exact ⟨[], m.entry i, Simplified.refl h hlist⟩
  | cons n post =>
    rw [List.head?_cons]
    dsimp only
    split
    case isFalse => exact ⟨n :: post, m.entry i, Simplified.refl h hlist⟩
    case isTrue hmerge =>
    have hmeet := (mergeable_iff.mp hmerge).1
    rcases mergeNext_spec h hlist hmeet with ⟨hre, hwf⟩
    have hn : n ∈ m.list := by simp [hlist]
    have hi : i ∈ m.list := by simp [hlist]
    have hnen := h.laid.nonempty n hn
    have hnei := h.laid.nonempty i hi
    have hjoin := joins_of_mergeable hmerge hnei.le hnen.le (.inr rfl)
    have halike := alike_of_mergeable hmerge
    refine ⟨post, mergedNext m i n, hwf, hre, .inl rfl, .inr ⟨n, rfl, ?_⟩, fun a => ?_, rfl,
      le_refl _, ?_⟩
    · exact ⟨halike.object.symm, halike.eflags.symm, halike.protection.symm,
        halike.maxProtection.symm, halike.inheritance.symm, halike.wiredCount.symm,
        halike.cred.symm⟩
    · have hlist' : m.list = (pre ++ [i]) ++ n :: post := by simpa using hlist
      have hnot : i ∉ pre ++ post :=
        notMem_rest (by simpa using (h.laid.erase hlist').nodup)
      rw [hre.look hnot, look_split hlist, List.map_cons, hjoin.lookIn]
      rfl
    · simp only [mergedNext]
      omega

/-- What simplifying an entry leaves: the entry may have taken in the one before
    it and the one behind it, and every address means what it did. -/
theorem simplifyEntry_spec :
    ∃ pre' post' e, Simplified m (m.simplifyEntry i) pre i post pre' post' e := by
  rw [Map.simplifyEntry]
  split
  case isTrue => exact ⟨pre, post, m.entry i, Simplified.refl h hlist⟩
  case isFalse =>
  rcases simplifyPrev_spec h hlist with ⟨pre', e, h₁⟩
  rcases simplifyNext_spec h₁.wf h₁.reshaped.list_eq with ⟨post', e', h₂⟩
  have he : (m.simplifyPrev i).entry i = e := by
    rw [h₁.reshaped.entry_eq, update_self]
  have hkept := h₁.kept
  refine ⟨pre', post', e', h₂.wf, h₁.reshaped.trans h₂.reshaped, h₁.front, ?_,
    fun a => (h₂.look a).trans (h₁.look a), ?_, ?_, ?_⟩
  · rcases h₂.back with hback | ⟨n, hback, halike⟩
    · exact .inl hback
    refine .inr ⟨n, hback, ?_⟩
    have hnodup : (pre ++ i :: post).Nodup := hlist ▸ h.tree.nodup
    have hni : n ≠ i := by
      rintro rfl
      refine notMem_rest hnodup (List.mem_append_right _ ?_)
      rw [hback]
      exact List.mem_cons_self
    rw [h₁.reshaped.entry_eq, update_of_ne hni, update_self, hkept] at halike
    exact ⟨halike.object, halike.eflags, halike.protection, halike.maxProtection,
      halike.inheritance, halike.wiredCount, halike.cred⟩
  · have hk := h₂.kept
    rw [he, hkept] at hk
    exact hk
  · have hs := h₂.start_le
    rw [he] at hs
    exact hs.trans h₁.start_le
  have hs := h₂.le_stop
  rw [he] at hs
  exact h₁.le_stop.trans hs

end

end simplify

end FreeBSDKern.VmMap
