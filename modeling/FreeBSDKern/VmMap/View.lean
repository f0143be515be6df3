import FreeBSDKern.VmMap.Lookup

/-!
# What an Address Map Means

An address map says of every address whether it is mapped and, if so, with what
attributes and by which byte of which object. `Map.look` is that function; it
reads the entries in list order and nothing of the tree.

Splitting an entry that has no object gives it one, since the two halves must
not each get their own later. The pages are as empty as before, so `SameAt`
counts an absent object and a new one that starts where the entry did as the same
backing.

## Main definitions

* `View`, `Map.look`: The meaning of a map at an address.
* `SameAt`: The meaning is kept, up to objects made in between.
* `Same`: A map with the same list and tree, and other attributes.

## Theorems

* `look_of_mem`: An entry that contains an address gives its meaning.
* `SameAt.trans`: Meanings kept twice are kept.
* `Wf.same`: Attributes do not matter to the invariant.
-/

namespace FreeBSDKern.VmMap

open Lib Function

/-- What is mapped at an address. `backing` is an object and the byte of it. -/
structure View where
  protection : Prot
  maxProtection : Prot
  inheritance : Inherit
  eflags : Eflags
  wiredCount : Int
  backing : Option (Nat × BitVec 64)
  deriving DecidableEq

/-- What an entry maps at an address. -/
def Entry.view (e : Entry) (a : Nat) : View where
  protection := e.protection
  maxProtection := e.maxProtection
  inheritance := e.inheritance
  eflags := e.eflags
  wiredCount := e.wiredCount
  backing := e.object.map fun o => (o, e.offset + BitVec.ofNat 64 (a - e.start))

/-- Whether an entry contains an address. -/
def Entry.contains (e : Entry) (a : Nat) : Bool := decide (e.start ≤ a) && decide (a < e.stop)

variable {a : Nat} {m : Map}

theorem contains_iff {e : Entry} : e.contains a = true ↔ e.start ≤ a ∧ a < e.stop := by
  simp [Entry.contains]

/-- What a list of entries maps at an address. -/
def lookIn (es : List Entry) (a : Nat) : Option View :=
  (es.find? fun e => e.contains a).map fun e => e.view a

@[simp] theorem lookIn_nil (a : Nat) : lookIn [] a = none := rfl

theorem lookIn_cons (e : Entry) (es : List Entry) (a : Nat) :
    lookIn (e :: es) a = if e.contains a then some (e.view a) else lookIn es a := by
  rw [lookIn, List.find?_cons]
  split <;> simp_all [lookIn]

theorem lookIn_append (es fs : List Entry) (a : Nat) :
    lookIn (es ++ fs) a = (lookIn es a).or (lookIn fs a) := by
  simp [lookIn, List.find?_append, Option.map_or]

/-- The entries of the map, in address order. -/
def Map.entries (m : Map) : List Entry := m.list.map m.entry

/-- The meaning of the map at an address. -/
def Map.look (m : Map) (a : Nat) : Option View := lookIn m.entries a

/-- Attributes kept and backing kept, or nothing behind the address before and a
    byte of an object made in between after. The objects made are those numbered
    from `f` to `f'`, and `base` is where each begins. -/
inductive SameAt (f f' : Nat) (base : Nat → Nat) (a : Nat) : Option View → Option View → Prop where
  | kept (v : Option View) : SameAt f f' base a v v
  | created (v : View) (o : Nat) (hv : v.backing = none) (hlo : f ≤ o) (hhi : o < f')
      (hbase : base o ≤ a) : SameAt f f' base a (some v)
        (some { v with backing := some (o, BitVec.ofNat 64 (a - base o)) })

theorem SameAt.of_eq {f f' : Nat} {base : Nat → Nat} {v v' : Option View} (h : v' = v) :
    SameAt f f' base a v v' := by
  rw [h]
  exact .kept v

/-- Objects made later begin elsewhere than those made before. -/
def joinBase (f : Nat) (base base' : Nat → Nat) (o : Nat) : Nat :=
  if o < f then base o else base' o

theorem SameAt.trans {f f' f'' : Nat} {base base' : Nat → Nat} {v v' v'' : Option View}
    (h : SameAt f f' base a v v') (h' : SameAt f' f'' base' a v' v'') (hle : f ≤ f')
    (hle' : f' ≤ f'') : SameAt f f'' (joinBase f' base base') a v v'' := by
  cases h' with
  | kept v =>
    cases h with
    | kept v => exact .kept v
    | created v o hv hlo hhi hbase =>
      have hjoin : joinBase f' base base' o = base o := if_pos hhi
      have hc : SameAt f f'' (joinBase f' base base') a _ _ := .created
        v o hv hlo (by omega) (by omega)
      rwa [hjoin] at hc
  | created v o hv hlo hhi hbase =>
    cases h with
    | kept _ =>
      have hjoin : joinBase f' base base' o = base' o := if_neg (by omega)
      have hc : SameAt f f'' (joinBase f' base base') a _ _ := .created
        v o hv (by omega) hhi (by omega)
      rwa [hjoin] at hc
    | created w p hw hlo' hhi' hbase' => cases hv

theorem look_of_mem (h : Laid m m.list) {i : Nat} (hi : i ∈ m.list)
    (ha : (m.entry i).start ≤ a ∧ a < (m.entry i).stop) : m.look a = some ((m.entry i).view a) := by
  have hsome : (m.entries.find? fun e => e.contains a).isSome := by
    rw [List.find?_isSome]
    exact ⟨m.entry i, List.mem_map_of_mem hi, contains_iff.mpr ha⟩
  rcases Option.isSome_iff_exists.mp hsome with ⟨e, he⟩
  rcases List.mem_map.mp (List.mem_of_find?_eq_some he) with ⟨j, hj, hje⟩
  have hc := contains_iff.mp (List.find?_some (p := fun e : Entry => e.contains a) he)
  have hij := h.eq_of_contains hi hj ha (hje ▸ hc)
  rw [Map.look, lookIn, he, Option.map_some, ← hje, hij]

theorem look_eq_none (h : ∀ i ∈ m.list, ¬((m.entry i).start ≤ a ∧ a < (m.entry i).stop)) :
    m.look a = none := by
  have hnone : (m.entries.find? fun e => e.contains a) = none := by
    rw [List.find?_eq_none]
    intro e he hc
    rcases List.mem_map.mp he with ⟨j, hj, rfl⟩
    exact h j hj (contains_iff.mp hc)
  rw [Map.look, lookIn, hnone]
  rfl

/-- Nothing is mapped between two parts of the list. -/
theorem look_between {pre rest : List Nat} {lo hi : Nat} (hlist : m.list = pre ++ rest)
    (hpre : ∀ j ∈ pre, (m.entry j).stop ≤ lo) (hrest : ∀ j ∈ rest, hi ≤ (m.entry j).start)
    (hlo : lo ≤ a) (hhi : a < hi) : m.look a = none :=
  look_eq_none fun j hj _ => by
    have := outside_of_split hlist hpre hrest hj
    omega

/-- A mapped address lies in some entry. -/
theorem exists_of_look {v : View} (h : m.look a = some v) :
    ∃ i ∈ m.list, ((m.entry i).start ≤ a ∧ a < (m.entry i).stop) ∧ (m.entry i).view a = v := by
  rcases Option.map_eq_some_iff.mp h with ⟨e, he, hv⟩
  rcases List.mem_map.mp (List.mem_of_find?_eq_some he) with ⟨j, hj, rfl⟩
  exact ⟨j, hj, contains_iff.mp (List.find?_some (p := fun e : Entry => e.contains a) he), hv⟩

/-- A map with the same list and tree and with every entry in the same place. -/
structure Same (m m' : Map) : Prop where
  list : m'.list = m.list
  root : m'.root = m.root
  adjFree : m'.adjFree = m.adjFree
  nentries : m'.nentries = m.nentries
  size : m'.size = m.size
  minOffset : m'.minOffset = m.minOffset
  maxOffset : m'.maxOffset = m.maxOffset
  fresh : m'.fresh = m.fresh
  start : ∀ i ∈ m.list, (m'.entry i).start = (m.entry i).start
  stop : ∀ i ∈ m.list, (m'.entry i).stop = (m.entry i).stop

theorem Same.nextStart {m' : Map} (h : Same m m') (i : Nat) : m'.nextStart i = m.nextStart i :=
  nextStart_congr h.start h.list h.maxOffset i

theorem Wf.same {m' : Map} (h : Wf m) (hs : Same m m') : Wf m' where
  tree := by
    refine ⟨?_, ?_, ?_, ?_, ?_⟩
    · rw [hs.list]
      exact h.tree.nodup
    · rw [hs.list, hs.root]
      exact h.tree.inorder
    · rw [hs.root, hs.adjFree]
      exact h.tree.maxOk
    · rw [hs.list, hs.nentries]
      exact h.tree.count
    · rw [hs.list, hs.fresh]
      exact h.tree.fresh
  laid := by
    rw [hs.list]
    refine ⟨List.Pairwise.imp_of_mem ?_ h.laid.ordered, ?_, ?_, ?_⟩
    · intro i j hi hj hij
      rw [hs.stop i hi, hs.start j hj]
      exact hij
    · intro i hi
      rw [hs.stop i hi, hs.start i hi]
      exact h.laid.nonempty i hi
    · intro i hi
      rw [hs.start i hi, hs.minOffset]
      exact h.laid.low i hi
    intro i hi
    rw [hs.stop i hi, hs.maxOffset]
    exact h.laid.high i hi
  gaps := by
    rw [hs.list]
    intro i hi
    rw [GapOk, hs.nextStart, hs.adjFree, hs.stop i hi]
    exact h.gaps i hi
  size := by
    rw [hs.size, h.size, mapped, mapped, hs.list]
    congr 1
    refine List.map_congr_left fun i hi => ?_
    rw [hs.start i hi, hs.stop i hi]
  limit := by
    rw [hs.minOffset, hs.maxOffset]
    exact h.limit

/-- Writing an entry anew where it is. -/
theorem Same.setEntry (m : Map) {i : Nat} {e : Entry} (hs : e.start = (m.entry i).start)
    (he : e.stop = (m.entry i).stop) : Same m (m.setEntry i e) := by
  refine ⟨rfl, rfl, rfl, rfl, rfl, rfl, rfl, rfl, fun j _ => ?_, fun j _ => ?_⟩
  · show (update m.entry i e j).start = _
    by_cases hji : j = i
    · rw [hji, update_self, hs]
    · rw [update_of_ne hji]
  show (update m.entry i e j).stop = _
  by_cases hji : j = i
  · rw [hji, update_self, he]
  · rw [update_of_ne hji]

theorem Wf.lock (h : Wf m) : Wf m.lock :=
  h.same ⟨rfl, rfl, rfl, rfl, rfl, rfl, rfl, rfl, fun _ _ => rfl, fun _ _ => rfl⟩

end FreeBSDKern.VmMap
