import FreeBSDKern.VmMap.Wire

/-!
# What Is Wired

How a map wires an address: how often, and whether by the user. The pages that are
wired in the physical map are kept apart from it.

The two walks of wiring cut entries at the ends of their range, change one entry
after the other where it is, and merge entries again. None of this changes how any
other address is wired.

## Main definitions

* `Wiring`, `Map.wiring`: How an address is wired.
* `Unmarked`: An entry no thread has marked.
* `Turned`: A map in which one entry was changed where it is.
* `Cut`: A map whose entries are parts of the old ones.

## Theorems

* `Turned.wiring`: Elsewhere the map is as it was.
* `Simplified.covers`: A simplified entry is made of whole entries.
* `clipStart_first`: The first entry of a range is cut.
-/

namespace FreeBSDKern.VmMap

open Lib

/-! ## How an address is wired -/

/-- How often an address is wired, whether by the user, and what may be done there. -/
structure Wiring where
  count : Int
  user : Bool
  protection : Prot
  deriving DecidableEq

def View.wiring (v : View) : Wiring := ⟨v.wiredCount, v.eflags.userWired, v.protection⟩

def Entry.wiring (e : Entry) : Wiring := ⟨e.wiredCount, e.eflags.userWired, e.protection⟩

/-- How a map wires an address. -/
def Map.wiring (m : Map) (a : Nat) : Option Wiring := (m.look a).map View.wiring

theorem SameAt.wiring {f f' : Nat} {base : Nat → Nat} {a : Nat} {v v' : Option View}
    (h : SameAt f f' base a v v') : v'.map View.wiring = v.map View.wiring := by
  cases h with
  | kept v => rfl
  | created v o hv hlo hhi hbase => rfl

section address

variable {m m' : Map} {i a : Nat}

theorem wiring_of_mem (h : Laid m m.list) (hi : i ∈ m.list) (ha : (m.entry i).contains a = true) :
    m.wiring a = some (m.entry i).wiring := by
  rw [Map.wiring, look_of_mem h hi (contains_iff.mp ha)]
  rfl

theorem exists_of_wiring {x : Wiring} (h : m.wiring a = some x) :
    ∃ i ∈ m.list, (m.entry i).contains a = true ∧ (m.entry i).wiring = x := by
  rcases Option.map_eq_some_iff.mp h with ⟨v, hv, hx⟩
  rcases exists_of_look hv with ⟨i, hi, ha, hview⟩
  refine ⟨i, hi, contains_iff.mpr ha, ?_⟩
  rw [← hx, ← hview]
  rfl

/-- An address is wired as before when its entry is. -/
theorem wiring_congr (h : Laid m m.list) (h' : Laid m' m'.list) (hlist : m'.list = m.list)
    (hplace : ∀ j ∈ m.list, (m'.entry j).contains a = (m.entry j).contains a)
    (hself : ∀ j ∈ m.list, (m.entry j).contains a = true →
      (m'.entry j).wiring = (m.entry j).wiring) : m'.wiring a = m.wiring a := by
  cases hw : m.wiring a with
  | some x =>
    rcases exists_of_wiring hw with ⟨j, hj, ha, hx⟩
    rw [wiring_of_mem h' (i := j) (hlist ▸ hj) (by rw [hplace j hj, ha]), hself j hj ha, hx]
  | none =>
    cases hw' : m'.wiring a with
    | none => rfl
    | some x =>
      rcases exists_of_wiring hw' with ⟨j, hj, ha, -⟩
      rw [hlist] at hj
      rw [hplace j hj] at ha
      rw [wiring_of_mem h hj ha] at hw
      cases hw

end address

/-! ## Entries and what is done to them -/

/-- An entry that no thread has marked. -/
structure Unmarked (e : Entry) : Prop where
  inTransition : e.eflags.inTransition = false
  wireSkipped : e.eflags.wireSkipped = false
  wiringThread : e.wiringThread = none

/-- An entry of whole pages. -/
def Aligned (e : Entry) : Prop := pageSize ∣ e.start ∧ pageSize ∣ e.stop

theorem Unmarked.copy {e e' : Entry} (h : Unmarked e) (hc : Copy e e') : Unmarked e' := by
  rw [hc]
  exact ⟨h.inTransition, h.wireSkipped, h.wiringThread⟩

theorem marked_iff {thread : Nat} {e : Entry} : Map.marked thread e = true ↔
    e.eflags.inTransition = true ∧ e.wiringThread = some thread := by
  rw [Map.marked, Bool.and_eq_true, beq_iff_eq]

/-- A map in which one entry, and pages of it, were changed where it is. -/
structure Turned (m m' : Map) (i : Nat) : Prop where
  wf : Wf m'
  list : m'.list = m.list
  other : ∀ j, j ≠ i → m'.entry j = m.entry j
  start : (m'.entry i).start = (m.entry i).start
  stop : (m'.entry i).stop = (m.entry i).stop
  protection : (m'.entry i).protection = (m.entry i).protection
  minOffset : m'.minOffset = m.minOffset
  maxOffset : m'.maxOffset = m.maxOffset
  wired : ∀ a, (m.entry i).contains a = false → m'.wired a = m.wired a

namespace Turned

variable {m m' m'' : Map} {i : Nat}

theorem refl (h : Wf m) (i : Nat) : Turned m m i :=
  ⟨h, rfl, fun _ _ => rfl, rfl, rfl, rfl, rfl, rfl, fun _ _ => rfl⟩

theorem contains (h : Turned m m' i) (j a : Nat) :
    (m'.entry j).contains a = (m.entry j).contains a := by
  by_cases hji : j = i
  · rw [hji, Entry.contains, Entry.contains, h.start, h.stop]
  · rw [h.other j hji]

theorem trans (h : Turned m m' i) (h' : Turned m' m'' i) : Turned m m'' i where
  wf := h'.wf
  list := h'.list.trans h.list
  other j hj := (h'.other j hj).trans (h.other j hj)
  start := h'.start.trans h.start
  stop := h'.stop.trans h.stop
  protection := h'.protection.trans h.protection
  minOffset := h'.minOffset.trans h.minOffset
  maxOffset := h'.maxOffset.trans h.maxOffset
  wired a ha := (h'.wired a (by rw [h.contains, ha])).trans (h.wired a ha)

/-- An entry written anew where it is, together with the pages of it that are wired. -/
theorem write (h : Wf m) {e : Entry} {w : Nat → Bool} (hs : e.start = (m.entry i).start)
    (he : e.stop = (m.entry i).stop) (hp : e.protection = (m.entry i).protection)
    (hw : ∀ a, (m.entry i).contains a = false → w a = m.wired a) :
    Turned m { m.setEntry i e with wired := w } i := by
  have hsame := Same.setEntry m hs he
  have hself : (m.setEntry i e).entry i = e := setEntry_entry_self m i e
  refine ⟨h.same ?_, rfl, fun j hj => setEntry_entry_of_ne m e hj, ?_, ?_, ?_, rfl, rfl, hw⟩
  · exact ⟨rfl, rfl, rfl, rfl, rfl, rfl, rfl, rfl, hsame.start, hsame.stop⟩
  · exact (congrArg Entry.start hself).trans hs
  · exact (congrArg Entry.stop hself).trans he
  · exact (congrArg Entry.protection hself).trans hp

theorem setEntry (h : Wf m) {e : Entry} (hs : e.start = (m.entry i).start)
    (he : e.stop = (m.entry i).stop) (hp : e.protection = (m.entry i).protection) :
    Turned m (m.setEntry i e) i :=
  write h (w := m.wired) hs he hp fun _ _ => rfl

/-- Elsewhere the map is as it was. -/
theorem wiring (h : Turned m m' i) (hw : Wf m) {a : Nat} (ha : (m.entry i).contains a = false) :
    m'.wiring a = m.wiring a := by
  refine wiring_congr hw.laid h.wf.laid h.list (fun j _ => h.contains j a) fun j _ hj => ?_
  have hji : j ≠ i := by
    rintro rfl
    rw [ha] at hj
    cases hj
  rw [h.other j hji]

theorem aligned (h : Turned m m' i) {j : Nat} (ha : Aligned (m.entry j)) :
    Aligned (m'.entry j) := by
  by_cases hji : j = i
  · rw [hji] at ha ⊢
    rw [Aligned, h.start, h.stop]
    exact ha
  · rw [h.other j hji]
    exact ha

end Turned

section cut

variable {m m' : Map} {pre post pre' post' : List Nat} {i : Nat} {e : Entry}

theorem Simplified.subset (hlist : m.list = pre ++ i :: post)
    (hs : Simplified m m' pre i post pre' post' e) : m'.list ⊆ m.list := by
  rw [hs.reshaped.list_eq, hlist]
  have hfront : pre' ⊆ pre := by
    rcases hs.front with hf | ⟨p, hf, -⟩
    · exact hf ▸ List.Subset.refl _
    · exact hf ▸ List.subset_append_left _ _
  have hback : post' ⊆ post := by
    rcases hs.back with hb | ⟨n, hb, -⟩
    · exact hb ▸ List.Subset.refl _
    · exact hb ▸ List.subset_cons_self n post'
  intro j hj
  rcases List.mem_append.mp hj with hj | hj
  · exact List.mem_append_left _ (hfront hj)
  · exact List.mem_append_right _ (List.cons_subset_cons i hback hj)

theorem Simplified.self (hs : Simplified m m' pre i post pre' post' e) : m'.entry i = e := by
  rw [hs.reshaped.entry_eq, Function.update_self]

theorem Simplified.other (hs : Simplified m m' pre i post pre' post' e) {j : Nat} (hj : j ≠ i) :
    m'.entry j = m.entry j := by
  rw [hs.reshaped.entry_eq, Function.update_of_ne hj]

section

variable (h : Wf m) (hlist : m.list = pre ++ i :: post) (hs : Simplified m m' pre i post pre' post' e)
include h hlist hs

theorem Simplified.covers {a : Nat} (ha : e.start ≤ a ∧ a < e.stop) :
    ∃ j ∈ m.list, ((m.entry j).start ≤ a ∧ a < (m.entry j).stop) ∧
      e.start ≤ (m.entry j).start ∧ (m.entry j).stop ≤ e.stop := by
  have hi' : i ∈ m'.list := by simp [hs.reshaped.list_eq]
  have hmapped := hs.look a
  rw [look_of_mem hs.wf.laid hi' (by rwa [hs.self])] at hmapped
  rcases exists_of_look hmapped.symm with ⟨j, hj, hja, -⟩
  -- The entry that was there is gone now, unless it is the one that is there.
  have hgone : j ∈ m'.list → j = i := by
    intro hj'
    by_contra hji
    exact hji (hs.wf.laid.eq_of_contains hj' hi' (by rwa [hs.other hji]) (by rwa [hs.self]))
  have hwithin : ∀ b, (m.entry j).start ≤ b → b < (m.entry j).stop → e.start ≤ b ∧ b < e.stop := by
    intro b h₁ h₂
    have hb := hs.look b
    rw [look_of_mem h.laid hj ⟨h₁, h₂⟩] at hb
    rcases exists_of_look hb with ⟨k, hk, hkb, -⟩
    by_cases hki : k = i
    · rwa [hki, hs.self] at hkb
    rw [hs.other hki] at hkb
    have hkj := h.laid.eq_of_contains (hs.subset hlist hk) hj hkb ⟨h₁, h₂⟩
    exact absurd (hgone (hkj ▸ hk)) (hkj ▸ hki)
  have hne := h.laid.nonempty j hj
  have h₁ := hwithin (m.entry j).start (le_refl _) hne
  have h₂ := hwithin ((m.entry j).stop - 1) (by omega) (by omega)
  exact ⟨j, hj, hja, h₁.1, by omega⟩

theorem Simplified.aligned (ha : ∀ j ∈ m.list, Aligned (m.entry j)) :
    ∀ j ∈ m'.list, Aligned (m'.entry j) := by
  intro j hj
  by_cases hji : j = i
  · have hne := hs.wf.laid.nonempty i (hji ▸ hj)
    rw [hs.self] at hne
    rcases hs.covers h hlist ⟨le_refl _, hne⟩ with ⟨k, hk, hin, hle, -⟩
    rcases hs.covers h hlist (a := e.stop - 1) (by omega) with ⟨n, hn, hin', -, hle'⟩
    have hstart : e.start = (m.entry k).start := by omega
    have hstop : e.stop = (m.entry n).stop := by omega
    rw [hji, hs.self, Aligned, hstart, hstop]
    exact ⟨(ha k hk).1, (ha n hn).2⟩
  · rw [hs.other hji]
    exact ha j (hs.subset hlist hj)

end

/-- A map with the same meaning whose entries are parts of the old ones. -/
structure Cut (m m' : Map) : Prop where
  wf : Wf m'
  wired : m'.wired = m.wired
  minOffset : m'.minOffset = m.minOffset
  maxOffset : m'.maxOffset = m.maxOffset
  wiring : ∀ a, m'.wiring a = m.wiring a
  quiet : (∀ j ∈ m.list, Unmarked (m.entry j)) → ∀ j ∈ m'.list, Unmarked (m'.entry j)
  aligned : (∀ j ∈ m.list, Aligned (m.entry j)) → ∀ j ∈ m'.list, Aligned (m'.entry j)

theorem Cut.refl (h : Wf m) : Cut m m :=
  ⟨h, rfl, rfl, rfl, fun _ => rfl, fun h => h, fun h => h⟩

/-- The first entry of a range is cut at the start of the range. -/
theorem clipStart_first (h : Wf m) (hlist : m.list = pre ++ i :: post) {lo : Nat}
    (hlo : pageSize ∣ lo) (ha : (m.entry i).start ≤ lo ∧ lo < (m.entry i).stop) :
    ∃ pre' post', Cut m (m.clipStart i lo) ∧ (m.clipStart i lo).list = pre' ++ i :: post' ∧
      post'.length ≤ post.length ∧ ((m.clipStart i lo).entry i).start = lo := by
  rw [Map.clipStart]
  split
  case isFalse hge => exact ⟨pre, post, .refl h, hlist, le_refl _, by omega⟩
  case isTrue hlt =>
  rcases clipStartAt_spec h hlist ⟨hlt, ha.2⟩ with
    ⟨pre', post', e, hsimp, hclip, hl, hnewStart, hnewStop, hselfStart, hselfStop⟩
  have hl' : (m.clipStartAt i lo).list = (pre' ++ [m.fresh]) ++ i :: post' := by simpa using hl
  have hi : i ∈ m.list := by simp [hlist]
  have hother : ∀ j ∈ (m.clipStartAt i lo).list, j ≠ i → j ≠ m.fresh →
      j ∈ m.list ∧ (m.clipStartAt i lo).entry j = m.entry j := by
    intro j hj hji hjn
    refine ⟨hsimp.subset hlist ?_, hclip.other j hji hjn⟩
    rw [hsimp.reshaped.list_eq]
    rw [hl] at hj
    simp only [List.mem_append, List.mem_cons] at hj ⊢
    exact hj.imp_right fun hj => hj.resolve_left hjn
  have hends := hsimp.aligned h hlist
  refine ⟨pre' ++ [m.fresh], post', ⟨hclip.wf, hclip.wired, hclip.minOffset, hclip.maxOffset,
    fun a => (hclip.look a).wiring, fun hq j hj => ?_, fun hal j hj => ?_⟩, hl', ?_, hselfStart⟩
  · by_cases hji : j = i
    · rw [hji]
      exact (hq i hi).copy hclip.self
    by_cases hjn : j = m.fresh
    · rw [hjn]
      exact (hq i hi).copy hclip.new
    rw [(hother j hj hji hjn).2]
    exact hq j (hother j hj hji hjn).1
  · have he := hends hal i (by simp [hsimp.reshaped.list_eq])
    rw [hsimp.self] at he
    by_cases hji : j = i
    · rw [hji, Aligned, hselfStart, hselfStop]
      exact ⟨hlo, he.2⟩
    by_cases hjn : j = m.fresh
    · rw [hjn, Aligned, hnewStart, hnewStop]
      exact ⟨he.1, hlo⟩
    rw [(hother j hj hji hjn).2]
    exact hal j (hother j hj hji hjn).1
  rcases hsimp.back with hback | ⟨n, hback, -⟩
  · rw [hback]
  · rw [hback, List.length_cons]
    omega

end cut

end FreeBSDKern.VmMap
