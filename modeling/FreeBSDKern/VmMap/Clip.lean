import FreeBSDKern.VmMap.Simplify

/-!
# Splitting Entries

`_vm_map_clip_start` and `_vm_map_clip_end` split an entry at an address. Before
that, an entry without an object gets one, since the halves must share it, and a
charge the entry carries moves to the object.

Both halves are copies of the whole with the offset of the upper one moved along,
so together they mean what the whole did (`joins_of_split`). What the two
functions differ in is which half keeps the number of the entry, and that
`_vm_map_clip_start` simplifies the entry first.

## Main definitions

* `Copy`: An entry made from another by moving it and giving it an object.
* `Clipped`: What a split does.

## Theorems

* `clipObject_spec`: An entry is given an object.
* `clipStartAt_spec`, `clipEndAt_spec`: What the two functions do.
* `clip_and_simplify_preserve_meaning`: The meaning of the map is kept.
-/

namespace FreeBSDKern.VmMap

open Lib Function

/-- An entry made from another by moving it, and perhaps giving it an object. -/
def Copy (e e' : Entry) : Prop :=
  e' = { e with start := e'.start, stop := e'.stop, object := e'.object, offset := e'.offset,
                cred := e'.cred }

theorem Copy.refl (e : Entry) : Copy e e := rfl

variable {e e' eNew eOld : Entry}

theorem Copy.trans {e'' : Entry} (h : Copy e e') (h' : Copy e' e'') : Copy e e'' := by
  rw [Copy, h] at h'
  exact h'

/-- The object of an entry about to be split begins where the entry does. -/
theorem clipObject_spec (m : Map) (i : Nat) :
    ∃ e b f, m.clipObject i = { m.setEntry i e with obj := b, freshObj := f } ∧
      m.freshObj ≤ f ∧ Copy (m.entry i) e ∧ e.start = (m.entry i).start ∧
      e.stop = (m.entry i).stop ∧
      ((f = m.freshObj ∧ e.object = (m.entry i).object ∧ e.offset = (m.entry i).offset) ∨
        (f = m.freshObj + 1 ∧ (m.entry i).object = none ∧ e.object = some m.freshObj ∧
          e.offset = 0 ∧
          (b m.freshObj).size = ((m.entry i).stop - (m.entry i).start) / pageSize)) := by
  have hself : m = { m.setEntry i (m.entry i) with obj := m.obj, freshObj := m.freshObj } := by
    simp only [Map.setEntry, update_eq_self]
  rw [Map.clipObject]
  cases ho : (m.entry i).object with
  | none =>
    dsimp only
    split
    case isTrue =>
      exact ⟨m.entry i, m.obj, m.freshObj, hself, le_refl _, rfl, rfl, rfl, .inl ⟨rfl, ho, rfl⟩⟩
    case isFalse =>
    refine ⟨{ m.entry i with object := some m.freshObj, offset := 0, cred := none }, _, _, rfl,
      by simp [Map.objectAllocate], rfl, rfl, rfl, .inr ⟨rfl, rfl, rfl, rfl, ?_⟩⟩
    simp only [Map.objectAllocate, update_self]
    split <;> rfl
  | some o =>
    dsimp only
    split
    case isTrue =>
      exact ⟨{ m.entry i with object := some o, cred := none }, _, _, rfl, le_refl _, rfl, rfl, rfl,
        .inl ⟨rfl, rfl, rfl⟩⟩
    case isFalse =>
      exact ⟨m.entry i, m.obj, m.freshObj, hself, le_refl _, rfl, rfl, rfl, .inl ⟨rfl, ho, rfl⟩⟩

/-- The lower part of an entry split at an address. -/
def lowerPart (e : Entry) (s : Nat) : Entry := { e with stop := s }

/-- The upper part of an entry split at an address. -/
def upperPart (e : Entry) (s : Nat) : Entry :=
  { e with start := s, offset := e.offset + BitVec.ofNat 64 (s - e.start) }

theorem joins_of_split {s : Nat} (hs : e.start ≤ s) (hs' : s ≤ e.stop) :
    Joins (lowerPart e s) (upperPart e s) e :=
  joins_of_view rfl rfl rfl hs hs' rfl rfl rfl (fun _ => rfl) (fun _ => rfl) fun _ => rfl

theorem clipReference_eq (m : Map) (e : Entry) :
    ∃ b, m.clipReference e = { m with obj := b } ∧ ∀ o, (b o).size = (m.obj o).size := by
  rw [Map.clipReference]
  split
  case isTrue => exact ⟨m.obj, rfl, fun _ => rfl⟩
  case isFalse =>
  cases e.object with
  | none => exact ⟨m.obj, rfl, fun _ => rfl⟩
  | some o =>
    refine ⟨_, rfl, fun o' => ?_⟩
    by_cases ho : o' = o
    · rw [ho, update_self]
    · rw [update_of_ne ho]

/-- Two entries written and the new one linked behind the first part of the list. -/
theorem linkParts_spec {m : Map} {P Q : List Nat} {i : Nat} (h : Wf m) (hlist : m.list = P ++ Q)
    (hlaid : Laid ((m.entryCreate eNew).setEntry i eOld) (P ++ m.fresh :: Q))
    (hgaps : GapsBut (m.setEntry i eOld) P.getLast?)
    (hsize : m.size = mapped ((m.entryCreate eNew).setEntry i eOld) (P ++ m.fresh :: Q)) :
    ∃ adj t, ((m.entryCreate eNew).setEntry i eOld).entryLink P.getLast? m.fresh
        = ((m.entryCreate eNew).setEntry i eOld).withTree (P ++ m.fresh :: Q) adj t ∧
      Wf (((m.entryCreate eNew).setEntry i eOld).withTree (P ++ m.fresh :: Q) adj t) := by
  set m₂ := (m.entryCreate eNew).setEntry i eOld with hm₂
  have hfresh : ∀ j ∈ m.list, j ≠ m.fresh := fun j hj => (h.tree.fresh j hj).ne
  have htree : TreeOk m₂ := by
    refine ⟨h.tree.nodup, h.tree.inorder, h.tree.maxOk, h.tree.count, fun j hj => ?_⟩
    have := h.tree.fresh j hj
    show j < m.fresh + 1
    omega
  -- The new entry is in no gap yet.
  have hentry : ∀ j ∈ m.list, m₂.entry j = (m.setEntry i eOld).entry j := by
    intro j hj
    by_cases hji : j = i
    · rw [hji, hm₂, setEntry_entry_self, setEntry_entry_self]
    · rw [hm₂, setEntry_entry_of_ne _ _ hji, setEntry_entry_of_ne _ _ hji]
      exact update_of_ne (hfresh j hj) _ _
  have hgaps₂ : GapsBut m₂ P.getLast? := by
    intro j hj hlast
    have hgap := hgaps j hj hlast
    have hnext : m₂.nextStart j = (m.setEntry i eOld).nextStart j :=
      nextStart_congr (fun k hk => congrArg Entry.start (hentry k hk)) rfl rfl j
    rw [GapOk] at hgap ⊢
    rw [hentry j hj, hnext]
    exact hgap
  rcases entryLink_spec htree hlaid hlist (Nat.lt_succ_self m.fresh) hgaps₂ with
    ⟨adj, t, heq, htree', hgaps'⟩
  refine ⟨adj, t, heq, htree', hlaid.congr (fun _ _ => rfl) rfl rfl,
    fun j hj => hgaps' j hj (by simp), hsize, h.limit⟩

/-- What a split does, whichever half keeps the number `i`: `base` is where the
    whole began. -/
structure Clipped (m m' : Map) (i base : Nat) : Prop where
  wf : Wf m'
  size : m'.size = m.size
  minOffset : m'.minOffset = m.minOffset
  maxOffset : m'.maxOffset = m.maxOffset
  systemMap : m'.systemMap = m.systemMap
  kernelPmap : m'.kernelPmap = m.kernelPmap
  timestamp : m'.timestamp = m.timestamp
  wired : m'.wired = m.wired
  fresh : m'.fresh = m.fresh + 1
  freshObj : m.freshObj ≤ m'.freshObj
  other : ∀ j, j ≠ i → j ≠ m.fresh → m'.entry j = m.entry j
  self : Copy (m.entry i) (m'.entry i)
  new : Copy (m.entry i) (m'.entry m.fresh)
  look : ∀ a, SameAt m.freshObj m'.freshObj (fun _ => base) a (m.look a) (m'.look a)
  created : m'.freshObj = m.freshObj ∨
    (m'.freshObj = m.freshObj + 1 ∧ ∃ stop, (m'.obj m.freshObj).size = (stop - base) / pageSize ∧
      ∀ a, base ≤ a → a < stop → ∃ v, m.look a = some v ∧ v.backing = none)

/-- Writing one entry of a list anew where it was. -/
theorem lookIn_replace {f f' : Nat} {base : Nat → Nat} {a : Nat} (hstart : e'.start = e.start)
    (hstop : e'.stop = e.stop)
    (hview : e.start ≤ a → SameAt f f' base a (some (e.view a)) (some (e'.view a)))
    (xs ys : List Entry) :
    SameAt f f' base a (lookIn (xs ++ e :: ys) a) (lookIn (xs ++ e' :: ys) a) := by
  rw [lookIn_append, lookIn_append, lookIn_cons, lookIn_cons]
  cases lookIn xs a with
  | some v => exact .kept _
  | none =>
    rw [Option.none_or, Option.none_or]
    have hc : e'.contains a = e.contains a := by
      rw [Entry.contains, Entry.contains, hstart, hstop]
    rw [hc]
    split
    case isTrue hin => exact hview (contains_iff.mp hin).1
    case isFalse => exact .kept _

/-- Giving an entry its object keeps the meaning. -/
theorem view_of_clipObject {f f' : Nat} {a : Nat} (hcopy : Copy e e') (hstart : e'.start = e.start)
    (ha : e.start ≤ a) (h : (f' = f ∧ e'.object = e.object ∧ e'.offset = e.offset) ∨
      (f' = f + 1 ∧ e.object = none ∧ e'.object = some f ∧ e'.offset = 0)) :
    SameAt f f' (fun _ => e.start) a (some (e.view a)) (some (e'.view a)) := by
  rcases h with ⟨-, ho, hoff⟩ | ⟨hf, ho, ho', hoff⟩
  · refine .of_eq ?_
    rw [hcopy]
    simp only [Entry.view, ho, hoff, hstart]
  have hc : SameAt f f' (fun _ => e.start) a (some (e.view a)) _ :=
    .created (e.view a) f (by simp [Entry.view, ho]) (le_refl f) (by omega) ha
  have hv : e'.view a = { e.view a with backing := some (f, BitVec.ofNat 64 (a - e.start)) } := by
    rw [hcopy]
    simp [Entry.view, ho', hoff, hstart]
  rw [hv]
  exact hc

section clip

variable {m : Map} {pre post : List Nat} {i s : Nat}

/-- The map with the two halves written, before the new one is linked. -/
def Map.parted (m : Map) (i : Nat) (eNew eOld : Entry) : Map :=
  (m.entryCreate eNew).setEntry i eOld

theorem parted_new (hne : m.fresh ≠ i) : (m.parted i eNew eOld).entry m.fresh = eNew := by
  rw [Map.parted, setEntry_entry_of_ne _ _ hne]
  exact update_self ..

theorem parted_self (m : Map) (i : Nat) (eNew eOld : Entry) :
    (m.parted i eNew eOld).entry i = eOld := setEntry_entry_self ..

theorem parted_other {j : Nat} (hji : j ≠ i) (hjn : j ≠ m.fresh) :
    (m.parted i eNew eOld).entry j = m.entry j := by
  rw [Map.parted, setEntry_entry_of_ne _ _ hji]
  exact update_of_ne hjn _ _

/-- The halves lie in order where the whole did, whatever their numbers. -/
theorem laid_parts {m₂ : Map} {x y : Nat} (h : Wf m) (hlist : m.list = pre ++ i :: post)
    (hs : (m.entry i).start < s ∧ s < (m.entry i).stop)
    (hx : m₂.entry x = lowerPart (m.entry i) s) (hy : m₂.entry y = upperPart (m.entry i) s)
    (hother : ∀ j ∈ pre ++ post, m₂.entry j = m.entry j)
    (hmin : m₂.minOffset = m.minOffset) (hmax : m₂.maxOffset = m.maxOffset) :
    Laid m₂ (pre ++ x :: y :: post) ∧ m.size = mapped m₂ (pre ++ x :: y :: post) := by
  have hi : i ∈ m.list := by simp [hlist]
  have haround := h.laid.around hlist
  have hrest := (h.laid.erase hlist).congr hother hmin hmax
  have hpre : ∀ j ∈ pre, m₂.entry j = m.entry j := fun j hj => hother j (by simp [hj])
  have hpost : ∀ j ∈ post, m₂.entry j = m.entry j := fun j hj => hother j (by simp [hj])
  have hlo := h.laid.low i hi
  have hhi := h.laid.high i hi
  have hall : ∀ {P : Nat → Prop}, P x → P y → (∀ j ∈ pre ++ post, P j) →
      ∀ j ∈ pre ++ x :: y :: post, P j := by
    intro P hPx hPy hP j hj
    simp only [List.mem_append, List.mem_cons] at hj
    rcases hj with hj | rfl | rfl | hj
    · exact hP j (by simp [hj])
    · exact hPx
    · exact hPy
    · exact hP j (by simp [hj])
  refine ⟨⟨?_, hall ?_ ?_ hrest.nonempty, hall ?_ ?_ hrest.low, hall ?_ ?_ hrest.high⟩, ?_⟩
  · have hp := List.pairwise_append.mp hrest.ordered
    refine List.pairwise_append.mpr ⟨hp.1,
      List.pairwise_cons.mpr ⟨?_, List.pairwise_cons.mpr ⟨?_, hp.2.1⟩⟩, ?_⟩
    · intro j hj
      rcases List.mem_cons.mp hj with hj | hj
      · rw [hj, hx, hy]
        exact le_refl s
      · rw [hx, hpost j hj]
        exact hs.2.le.trans (haround.2 j hj)
    · intro j hj
      rw [hy, hpost j hj]
      exact haround.2 j hj
    intro j hj k hk
    rw [hpre j hj]
    simp only [List.mem_cons] at hk
    rcases hk with rfl | rfl | hk
    · rw [hx]
      exact haround.1 j hj
    · rw [hy]
      exact (haround.1 j hj).trans hs.1.le
    · rw [← hpre j hj]
      exact hp.2.2 j hj k hk
  · rw [hx]
    exact hs.1
  · rw [hy]
    exact hs.2
  · rw [hx, hmin]
    exact hlo
  · rw [hy, hmin]
    exact hlo.trans hs.1.le
  · rw [hx, hmax]
    exact hs.2.le.trans hhi
  · rw [hy, hmax]
    exact hhi
  have hold := h.size
  rw [hlist, mapped_append, mapped_cons] at hold
  rw [mapped_append, mapped_cons, mapped_cons, hx, hy, mapped_congr hpre, mapped_congr hpost]
  simp only [lowerPart, upperPart]
  omega

/-- The half with a new number is not in the list yet. -/
theorem fresh_notMem (h : Wf m) : m.fresh ∉ m.list :=
  fun hin => absurd (h.tree.fresh _ hin) (lt_irrefl _)

/-- The meaning of a map whose list holds two halves where it held a whole. -/
theorem look_parts {m₂ : Map} {x y : Nat} (hlist : m.list = pre ++ i :: post)
    (hs : (m.entry i).start < s ∧ s < (m.entry i).stop)
    (hx : m₂.entry x = lowerPart (m.entry i) s) (hy : m₂.entry y = upperPart (m.entry i) s)
    (hother : ∀ j ∈ pre ++ post, m₂.entry j = m.entry j) (adj : Nat → Nat) (t : SplayTree Nat)
    (a : Nat) : (m₂.withTree (pre ++ x :: y :: post) adj t).look a = m.look a := by
  have hmap : ∀ l : List Nat, (∀ j ∈ l, j ∈ pre ++ post) → l.map m₂.entry = l.map m.entry :=
    fun l hl => List.map_congr_left fun j hj => hother j (hl j hj)
  rw [look_split (withTree_list ..), withTree_entry, look_split hlist, List.map_cons, hx, hy,
    hmap pre (fun j hj => List.mem_append_left _ hj),
    hmap post (fun j hj => List.mem_append_right _ hj)]
  exact (joins_of_split hs.1.le hs.2.le).lookIn _ _ a

section

variable (h : Wf m) (hlist : m.list = pre ++ i :: post)
include h hlist

/-- The new half in front of the old one. -/
theorem splitFront_spec (hs : (m.entry i).start < s ∧ s < (m.entry i).stop) :
    let m₂ := m.parted i (lowerPart (m.entry i) s) (upperPart (m.entry i) s)
    ∃ adj t, m₂.entryLink pre.getLast? m.fresh
        = m₂.withTree (pre ++ m.fresh :: i :: post) adj t ∧
      Wf (m₂.withTree (pre ++ m.fresh :: i :: post) adj t) ∧
      ∀ a, (m₂.withTree (pre ++ m.fresh :: i :: post) adj t).look a = m.look a := by
  have hi : i ∈ m.list := by simp [hlist]
  have hne : m.fresh ≠ i := (h.tree.fresh i hi).ne'
  have hnodup : (pre ++ i :: post).Nodup := hlist ▸ h.tree.nodup
  have hother : ∀ j ∈ pre ++ post,
      (m.parted i (lowerPart (m.entry i) s) (upperPart (m.entry i) s)).entry j = m.entry j := by
    intro j hj
    refine parted_other ?_ ?_
    · rintro rfl
      exact notMem_rest hnodup hj
    rintro rfl
    exact fresh_notMem h (hlist ▸ (List.Sublist.append_left
      (List.sublist_cons_self i post) pre).subset hj)
  have hparts := laid_parts h hlist hs (parted_new hne) (parted_self ..) hother rfl rfl
  have hgaps : GapsBut (m.setEntry i (upperPart (m.entry i) s)) pre.getLast? :=
    GapsBut.setStart (fun j hj _ => h.gaps j hj) hlist h.tree.nodup rfl
  rcases linkParts_spec h hlist hparts.1 hgaps hparts.2 with ⟨adj, t, heq, hwf⟩
  refine ⟨adj, t, heq, hwf, fun a => ?_⟩
  exact look_parts hlist hs (parted_new hne) (parted_self ..) hother adj t a

/-- The new half behind the old one. -/
theorem splitBack_spec (hs : (m.entry i).start < s ∧ s < (m.entry i).stop) :
    let m₂ := m.parted i (upperPart (m.entry i) s) (lowerPart (m.entry i) s)
    ∃ adj t, m₂.entryLink (some i) m.fresh = m₂.withTree (pre ++ i :: m.fresh :: post) adj t ∧
      Wf (m₂.withTree (pre ++ i :: m.fresh :: post) adj t) ∧
      ∀ a, (m₂.withTree (pre ++ i :: m.fresh :: post) adj t).look a = m.look a := by
  have hi : i ∈ m.list := by simp [hlist]
  have hne : m.fresh ≠ i := (h.tree.fresh i hi).ne'
  have hnodup : (pre ++ i :: post).Nodup := hlist ▸ h.tree.nodup
  have hother : ∀ j ∈ pre ++ post,
      (m.parted i (upperPart (m.entry i) s) (lowerPart (m.entry i) s)).entry j = m.entry j := by
    intro j hj
    refine parted_other ?_ ?_
    · rintro rfl
      exact notMem_rest hnodup hj
    rintro rfl
    exact fresh_notMem h (hlist ▸ (List.Sublist.append_left
      (List.sublist_cons_self i post) pre).subset hj)
  have hparts := laid_parts h hlist hs (parted_self ..) (parted_new hne) hother rfl rfl
  have hgaps : GapsBut (m.setEntry i (lowerPart (m.entry i) s)) (some i) :=
    GapsBut.setStop (fun j hj _ => h.gaps j hj) rfl
  have hsplit : ∀ l : List Nat, (pre ++ [i]) ++ l = pre ++ i :: l := by simp
  have hlast : (pre ++ [i]).getLast? = some i := List.getLast?_concat
  have hlist' : m.list = (pre ++ [i]) ++ post := by
    rw [hsplit]
    exact hlist
  have hlink := linkParts_spec h hlist' (by rw [hsplit]; exact hparts.1) (by rw [hlast]; exact hgaps)
    (by rw [hsplit]; exact hparts.2)
  rw [hsplit, hlast] at hlink
  rcases hlink with ⟨adj, t, heq, hwf⟩
  refine ⟨adj, t, heq, hwf, fun a => ?_⟩
  exact look_parts hlist hs (parted_self ..) (parted_new hne) hother adj t a

theorem clipObject_wf :
    Wf (m.clipObject i) ∧ (m.clipObject i).list = pre ++ i :: post := by
  rcases clipObject_spec m i with ⟨e, b, f, heq, -, -, hstart, hstop, -⟩
  rw [heq]
  refine ⟨h.same ⟨rfl, rfl, rfl, rfl, rfl, rfl, rfl, rfl, fun j _ => ?_, fun j _ => ?_⟩, hlist⟩
  · by_cases hji : j = i
    · rw [hji]
      exact (congrArg Entry.start (setEntry_entry_self m i e)).trans hstart
    · exact congrArg Entry.start (setEntry_entry_of_ne m e hji)
  by_cases hji : j = i
  · rw [hji]
    exact (congrArg Entry.stop (setEntry_entry_self m i e)).trans hstop
  · exact congrArg Entry.stop (setEntry_entry_of_ne m e hji)

/-- What is common to the two ways of splitting. -/
theorem clipped_of_split {m₃ : Map} {l : List Nat} {adj : Nat → Nat} {t : SplayTree Nat} (h₃ : m₃ = ((m.clipObject i).parted i eNew eOld).withTree l adj t) (hwf : Wf m₃)
    (hlook : ∀ a, m₃.look a = (m.clipObject i).look a) (hnew : Copy ((m.clipObject i).entry i) eNew)
    (hold : Copy ((m.clipObject i).entry i) eOld) :
    Clipped m (m₃.clipReference ((m.clipObject i).entry i)) i (m.entry i).start := by
  have hi : i ∈ m.list := by simp [hlist]
  have hne : m.fresh ≠ i := (h.tree.fresh i hi).ne'
  rcases clipObject_spec m i with ⟨e, b, f, hobj, hf, hcopy, hstart, hstop, hcase⟩
  have he : (m.clipObject i).entry i = e := by
    rw [hobj]
    exact setEntry_entry_self m i e
  rw [he] at hnew hold ⊢
  rcases clipReference_eq m₃ e with ⟨b', hb', hsize⟩
  rw [hb']
  have hfields : m₃.minOffset = m.minOffset ∧ m₃.maxOffset = m.maxOffset ∧
      m₃.systemMap = m.systemMap ∧ m₃.kernelPmap = m.kernelPmap ∧ m₃.timestamp = m.timestamp ∧
      m₃.wired = m.wired ∧ m₃.size = m.size ∧ m₃.fresh = m.fresh + 1 ∧ m₃.freshObj = f ∧
      m₃.obj = b := by
    rw [h₃, hobj]
    exact ⟨rfl, rfl, rfl, rfl, rfl, rfl, rfl, rfl, rfl, rfl⟩
  have hfresh₁ : (m.clipObject i).fresh = m.fresh := by
    rw [hobj]
    rfl
  have hent : m₃.entry = ((m.clipObject i).parted i eNew eOld).entry := by rw [h₃]; rfl
  rcases hfields with ⟨h1, h2, h3, h4, h5, h6, h7, h8, h9, h10⟩
  refine
    { wf := hwf.withObj b', size := h7, minOffset := h1, maxOffset := h2, systemMap := h3,
      kernelPmap := h4, timestamp := h5, wired := h6, fresh := h8, freshObj := h9 ▸ hf,
      other := ?_, self := ?_, new := ?_, look := ?_, created := ?_ }
  · intro j hji hjn
    show m₃.entry j = m.entry j
    rw [hent, parted_other hji (by rwa [hfresh₁]), hobj]
    exact setEntry_entry_of_ne m e hji
  · show Copy (m.entry i) (m₃.entry i)
    rw [hent, parted_self]
    exact hcopy.trans hold
  · show Copy (m.entry i) (m₃.entry m.fresh)
    rw [hent, ← hfresh₁, parted_new (by rwa [hfresh₁])]
    exact hcopy.trans hnew
  · intro a
    show SameAt m.freshObj m₃.freshObj _ a (m.look a) (m₃.look a)
    have hnodup : (pre ++ i :: post).Nodup := hlist ▸ h.tree.nodup
    have hre : Reshaped m ({ m.setEntry i e with obj := b } : Map) (pre ++ i :: post) i e := by
      refine ⟨m.adjFree, m.root, b, ?_⟩
      rw [← hlist]
      simp only [Map.withTree, Map.setEntry, ← h.tree.count]
    have hlook₁ : (m.clipObject i).look a = lookIn (pre.map m.entry ++ e :: post.map m.entry) a := by
      rw [hobj, ← hre.look (notMem_rest hnodup)]
      rfl
    rw [hlook, hlook₁, h9, look_split hlist]
    refine lookIn_replace hstart hstop (fun ha => ?_) _ _
    refine view_of_clipObject hcopy hstart ha ?_
    exact hcase.imp id fun hc => ⟨hc.1, hc.2.1, hc.2.2.1, hc.2.2.2.1⟩
  rcases hcase with ⟨hf', -, -⟩ | ⟨hf', hnone, -, -, hsz⟩
  · exact .inl (h9.trans hf')
  refine .inr ⟨h9.trans hf', (m.entry i).stop, ?_, fun a hlo hhi => ?_⟩
  · show (b' m.freshObj).size = _
    rw [hsize, h10, hsz]
  · refine ⟨_, look_of_mem h.laid hi ⟨hlo, hhi⟩, ?_⟩
    simp [Entry.view, hnone]

end

/-- The entry about to be split, once it has its object. -/
theorem clipObject_entry (m : Map) (i : Nat) : Copy (m.entry i) ((m.clipObject i).entry i) ∧
      ((m.clipObject i).entry i).start = (m.entry i).start ∧
      ((m.clipObject i).entry i).stop = (m.entry i).stop ∧ (m.clipObject i).fresh = m.fresh := by
  rcases clipObject_spec m i with ⟨e, b, f, hobj, -, hcopy, hstart, hstop, -⟩
  have he : (m.clipObject i).entry i = e := by
    rw [hobj]
    exact setEntry_entry_self m i e
  rw [he]
  refine ⟨hcopy, hstart, hstop, ?_⟩
  rw [hobj]
  rfl

/-- The last steps of both functions: link the new half and refer to the object. -/
theorem clip_finish {l : List Nat} {P : Option Nat} {adj : Nat → Nat} {t : SplayTree Nat} (h : Wf m)
    (hlist : m.list = pre ++ i :: post)
    (hlink : ((m.clipObject i).parted i eNew eOld).entryLink P (m.clipObject i).fresh
      = ((m.clipObject i).parted i eNew eOld).withTree l adj t)
    (hwf : Wf (((m.clipObject i).parted i eNew eOld).withTree l adj t))
    (hlook : ∀ a, (((m.clipObject i).parted i eNew eOld).withTree l adj t).look a
      = (m.clipObject i).look a) (hnew : Copy ((m.clipObject i).entry i) eNew)
    (hold : Copy ((m.clipObject i).entry i) eOld) (m' : Map)
    (hm' : m' = (((m.clipObject i).parted i eNew eOld).entryLink P
      (m.clipObject i).fresh).clipReference ((m.clipObject i).entry i)) :
    Clipped m m' i (m.entry i).start ∧ m'.list = l ∧ m'.entry i = eOld ∧
      m'.entry m.fresh = eNew := by
  have hi : i ∈ m.list := by simp [hlist]
  have hfresh := (clipObject_entry m i).2.2.2
  have hne : (m.clipObject i).fresh ≠ i := by
    rw [hfresh]
    exact (h.tree.fresh i hi).ne'
  rw [hlink] at hm'
  have hclip := clipped_of_split h hlist rfl hwf hlook hnew hold
  rw [← hm'] at hclip
  rcases clipReference_eq (((m.clipObject i).parted i eNew eOld).withTree l adj t)
    ((m.clipObject i).entry i) with ⟨b', hb', -⟩
  rw [hb'] at hm'
  refine ⟨hclip, ?_, ?_, ?_⟩
  · rw [hm']
    rfl
  · rw [hm']
    exact parted_self ..
  · rw [hm', ← hfresh]
    exact parted_new hne

/-- `_vm_map_clip_end`: the new entry is the upper half, behind the old one. -/
theorem clipEndAt_spec (h : Wf m) (hlist : m.list = pre ++ i :: post)
    (hs : (m.entry i).start < s ∧ s < (m.entry i).stop) :
    Clipped m (m.clipEndAt i s) i (m.entry i).start ∧
      (m.clipEndAt i s).list = pre ++ i :: m.fresh :: post ∧
      ((m.clipEndAt i s).entry i).start = (m.entry i).start ∧ ((m.clipEndAt i s).entry i).stop = s ∧
      ((m.clipEndAt i s).entry m.fresh).start = s ∧
      ((m.clipEndAt i s).entry m.fresh).stop = (m.entry i).stop := by
  rcases clipObject_wf h hlist with ⟨hwf₁, hlist₁⟩
  rcases clipObject_entry m i with ⟨-, hstart, hstop, -⟩
  rcases splitBack_spec hwf₁ hlist₁ (s := s) (by rw [hstart, hstop]; exact hs) with
    ⟨adj, t, heq, hwf, hlook⟩
  have hfin := clip_finish h hlist heq hwf hlook rfl rfl (m.clipEndAt i s) rfl
  have hfresh := (clipObject_entry m i).2.2.2
  rw [hfresh] at hfin
  rcases hfin with ⟨hclip, hl, hold, hnew⟩
  refine ⟨hclip, hl, ?_, ?_, ?_, ?_⟩
  · rw [hold]
    exact hstart
  · rw [hold]
    rfl
  · rw [hnew]
    rfl
  · rw [hnew]
    exact hstop

/-- A split after the entry has been simplified. -/
theorem Clipped.of_simplified {m' : Map} {pre' post' : List Nat}
    (hsimp : Simplified m (m.simplifyEntry i) pre i post pre' post' e)
    (hc : Clipped (m.simplifyEntry i) m' i e.start) : Clipped m m' i e.start := by
  rcases hsimp.reshaped with ⟨adj, t, b, hre⟩
  have hfresh : (m.simplifyEntry i).fresh = m.fresh := by rw [hre]; rfl
  have hfreshObj : (m.simplifyEntry i).freshObj = m.freshObj := by rw [hre]; rfl
  have hent := hsimp.reshaped.entry_eq
  have hself : Copy (m.entry i) ((m.simplifyEntry i).entry i) := by
    rw [hent, update_self, hsimp.kept]
    rfl
  have hlook := hc.look
  have hcreated := hc.created
  simp only [hfreshObj, hsimp.look] at hlook hcreated
  refine
    { wf := hc.wf, size := hc.size.trans (by rw [hre]; rfl),
      minOffset := hc.minOffset.trans (by rw [hre]; rfl),
      maxOffset := hc.maxOffset.trans (by rw [hre]; rfl),
      systemMap := hc.systemMap.trans (by rw [hre]; rfl),
      kernelPmap := hc.kernelPmap.trans (by rw [hre]; rfl),
      timestamp := hc.timestamp.trans (by rw [hre]; rfl),
      wired := hc.wired.trans (by rw [hre]; rfl), fresh := hc.fresh.trans (by rw [hfresh]),
      freshObj := hfreshObj ▸ hc.freshObj, other := ?_, self := hself.trans hc.self, new := ?_,
      look := hlook, created := hcreated }
  · intro j hji hjn
    rw [hc.other j hji (by rwa [hfresh]), hent, update_of_ne hji]
  · rw [← hfresh]
    exact hself.trans hc.new

/-- `_vm_map_clip_start`: the entry is simplified, and the new entry is the lower
    half, in front of the old one. -/
theorem clipStartAt_spec (h : Wf m) (hlist : m.list = pre ++ i :: post)
    (hs : (m.entry i).start < s ∧ s < (m.entry i).stop) :
    ∃ pre' post' e, Simplified m (m.simplifyEntry i) pre i post pre' post' e ∧
      Clipped m (m.clipStartAt i s) i e.start ∧
      (m.clipStartAt i s).list = pre' ++ m.fresh :: i :: post' ∧
      ((m.clipStartAt i s).entry m.fresh).start = e.start ∧
      ((m.clipStartAt i s).entry m.fresh).stop = s ∧ ((m.clipStartAt i s).entry i).start = s ∧
      ((m.clipStartAt i s).entry i).stop = e.stop := by
  rcases simplifyEntry_spec h hlist with ⟨pre', post', e, hsimp⟩
  set m₀ := m.simplifyEntry i
  have hlist₀ : m₀.list = pre' ++ i :: post' := hsimp.reshaped.list_eq
  have he : m₀.entry i = e := by
    rw [hsimp.reshaped.entry_eq, update_self]
  have hfresh₀ : m₀.fresh = m.fresh := by
    rcases hsimp.reshaped with ⟨adj, t, b, hre⟩
    rw [hre]
    rfl
  rcases clipObject_wf hsimp.wf hlist₀ with ⟨hwf₁, hlist₁⟩
  rcases clipObject_entry m₀ i with ⟨-, hstart, hstop, hfresh⟩
  rw [he] at hstart hstop
  have hs₁ : ((m₀.clipObject i).entry i).start < s ∧ s < ((m₀.clipObject i).entry i).stop := by
    rw [hstart, hstop]
    exact ⟨hsimp.start_le.trans_lt hs.1, hs.2.trans_le hsimp.le_stop⟩
  rcases splitFront_spec hwf₁ hlist₁ hs₁ with ⟨adj, t, heq, hwf, hlook⟩
  have hprev : prev? ((m₀.clipObject i).parted i (lowerPart ((m₀.clipObject i).entry i) s)
      (upperPart ((m₀.clipObject i).entry i) s)).list i = pre'.getLast? := by
    show prev? (m₀.clipObject i).list i = _
    rw [hlist₁]
    exact prev?_append (hlist₁ ▸ hwf₁.tree.nodup)
  have hfin := clip_finish hsimp.wf hlist₀ heq hwf hlook rfl rfl (m.clipStartAt i s)
    (by rw [← hprev]; rfl)
  rw [hfresh, hfresh₀, he] at hfin
  rcases hfin with ⟨hclip, hl, hold, hnew⟩
  refine ⟨pre', post', e, hsimp, hclip.of_simplified hsimp, hl, ?_, ?_, ?_, ?_⟩
  · rw [hnew]
    exact hstart
  · rw [hnew]
    rfl
  · rw [hold]
    rfl
  · rw [hold]
    exact hstop

end clip

end FreeBSDKern.VmMap
