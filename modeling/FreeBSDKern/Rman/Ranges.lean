import FreeBSDKern.Lib.Marked
import FreeBSDKern.Rman.List

/-!
# The List of a Manager

The invariant of a manager, and the rule by which the operations keep it. The
entries lie one behind the other. The sharers of a resource are on one list, all
of them allocated and with the bounds of the one that is on the list of the
manager.

An operation changes some neighbours in the list. `Ok.rewrite` says what is to
be shown of them: they are not shared, they lie one behind the other, and they
cover what was covered before. The entries around them and the sharing lists
come with the rule.

## Main definitions

* `Manager.ranges`: The bounds of the entries.
* `mark`, `marks`: The same with whether they are allocated.
* `Group`: A list of sharers.
* `Manager.Ok`: The invariant.

## Theorems

* `Manager.Ok.rewrite`: A change of neighbours.
* `absorb_prev`, `absorb_next`, `move_bound`, `split_front`, `split_back`: The
  changes that the operations are made of.
-/

namespace FreeBSDKern.Rman

open Lib Function

def Manager.range (m : Manager) (i : Nat) : Nat × Nat := ((m.res i).rStart, (m.res i).rEnd)

/-- The bounds of the entries. -/
def Manager.ranges (m : Manager) : List (Nat × Nat) := m.rmList.map m.range

/-- The bounds of an entry, and whether it is allocated. -/
def mark (r : Resource) : Marked := ((r.rStart, r.rEnd), has r.rFlags rfAllocated)

def marks (m : Manager) : List Marked := m.rmList.map (fun i => mark (m.res i))

/-- The sharers of a resource, and the one of them in the list of the manager. -/
structure Group (m : Manager) (h lead : Nat) : Prop where
  listed : lead ∈ m.rmList
  mem : lead ∈ m.heads h
  nodup : (m.heads h).Nodup
  fresh : ∀ i ∈ m.heads h, i < m.nextRes
  head : ∀ i ∈ m.heads h, (m.res i).rSharehead = some h
  allocated : ∀ i ∈ m.heads h, m.allocated i = true
  shareable : ∀ i ∈ m.heads h, has (m.res i).rFlags rfShareable = true
  range : ∀ i ∈ m.heads h, m.range i = m.range lead
  unique : ∀ i ∈ m.heads h, i ∈ m.rmList ↔ i = lead
  first : ∀ i ∈ m.heads h, has (m.res i).rFlags rfFirstshare = true ↔ i = lead

/-- The entries lie one behind the other, and the sharing lists are groups. -/
structure Manager.Core (m : Manager) : Prop where
  nodup : m.rmList.Nodup
  fresh : ∀ i ∈ m.rmList, i < m.nextRes
  ranges : Ranges m.ranges
  word : ∀ i ∈ m.rmList, (m.res i).rEnd < wordSize
  groups : ∀ h, m.heads h = [] ∨ ∃ lead, Group m h lead
  shared : ∀ i ∈ m.rmList, ∀ h, (m.res i).rSharehead = some h → i ∈ m.heads h
  freshHead : ∀ h, m.nextHead ≤ h → m.heads h = []

/-- A sharing list that exists has at least two sharers. -/
structure Manager.Ok (m : Manager) : Prop extends m.Core where
  two : ∀ h, m.heads h = [] ∨ 2 ≤ (m.heads h).length

section Groups

variable {m : Manager}

/-- What is on no sharing list. -/
def Unshared (m : Manager) (i : Nat) : Prop := ∀ h, i ∉ m.heads h

variable {i a b x r : Nat} {m' m : Manager} {pre post mid : List Nat} {es : List (Nat × Resource)}
  {X : Set Nat}

theorem Manager.Core.group (hok : m.Core) {h : Nat} (hi : i ∈ m.heads h) :
    ∃ lead, Group m h lead := by
  rcases hok.groups h with hnil | hg
  · rw [hnil] at hi
    exact absurd hi List.not_mem_nil
  · exact hg

theorem Manager.Core.unshared_of_free (hok : m.Core) (hfree : m.allocated i = false) :
    Unshared m i := by
  intro h hi
  rcases hok.group hi with ⟨lead, hg⟩
  have := hg.allocated i hi
  rw [hfree] at this
  exact absurd this Bool.false_ne_true

theorem Manager.Core.unshared_of_none (hok : m.Core) (hnone : (m.res i).rSharehead = none) :
    Unshared m i := by
  intro h hi
  rcases hok.group hi with ⟨lead, hg⟩
  have := hg.head i hi
  rw [hnone] at this
  cases this

theorem Manager.Core.sharehead_of_unshared (hok : m.Core) (hi : i ∈ m.rmList) (hun : Unshared m i) :
    (m.res i).rSharehead = none := by
  cases hhead : (m.res i).rSharehead with
  | none => rfl
  | some h => exact absurd (hok.shared i hi h hhead) (hun h)

/-- A change of one entry that keeps its bounds. -/
theorem range_put {e : Resource} (h : (e.rStart, e.rEnd) = m.range r) (j : Nat) :
    (m.put r e).range j = m.range j := by
  by_cases hj : j = r
  · rw [hj, ← h]
    simp [Manager.range, Manager.put]
  · simp [Manager.range, Manager.put, hj]

/-- A change of one entry that keeps its bounds and whether it is allocated. -/
theorem mark_update {e : Resource} (h : mark e = mark (m.res r)) (j : Nat) :
    mark (update m.res r e j) = mark (m.res j) := by
  by_cases hj : j = r
  · rw [hj, update_self, h]
  · rw [update_of_ne hj]

theorem allocated_of_flags (hflags : (m.res i).rFlags = 0#32) : m.allocated i = false := by
  rw [Manager.allocated, hflags]
  decide

/-- A sharing list does not notice a change of resources that are not on it. -/
theorem Group.frame {h lead : Nat} (hg : Group m h lead) (hheads : m'.heads h = m.heads h)
    (hnext : m.nextRes ≤ m'.nextRes) (hres : ∀ i ∈ m.heads h, m'.res i = m.res i)
    (hlist : ∀ i ∈ m.heads h, (i ∈ m'.rmList ↔ i ∈ m.rmList)) : Group m' h lead where
  listed := (hlist lead hg.mem).mpr hg.listed
  mem := by
    rw [hheads]
    exact hg.mem
  nodup := by
    rw [hheads]
    exact hg.nodup
  fresh := by
    intro i hi
    rw [hheads] at hi
    exact lt_of_lt_of_le (hg.fresh i hi) hnext
  head := by
    intro i hi
    rw [hheads] at hi
    rw [hres i hi]
    exact hg.head i hi
  allocated := by
    intro i hi
    rw [hheads] at hi
    rw [Manager.allocated, hres i hi]
    exact hg.allocated i hi
  shareable := by
    intro i hi
    rw [hheads] at hi
    rw [hres i hi]
    exact hg.shareable i hi
  range := by
    intro i hi
    rw [hheads] at hi
    rw [Manager.range, Manager.range, hres i hi, hres lead hg.mem]
    exact hg.range i hi
  unique := by
    intro i hi
    rw [hheads] at hi
    rw [hlist i hi]
    exact hg.unique i hi
  first := by
    intro i hi
    rw [hheads] at hi
    rw [hres i hi]
    exact hg.first i hi

theorem ulongMax_succ : ulongMax + 1 = wordSize := by decide

theorem add_one (h : a < ulongMax) : add a 1 = a + 1 :=
  Nat.mod_eq_of_lt (by unfold ulongMax at h; omega)

theorem add_one_max : add ulongMax 1 = 0 := by decide

/-- Entries behind an entry start behind its end. -/
theorem Manager.Core.lt_of_split (hok : m.Core) {s : Nat} (hlist : m.rmList = pre ++ s :: post) :
    (∀ i ∈ pre, (m.res i).rEnd < (m.res s).rStart) ∧
      (m.res s).rStart ≤ (m.res s).rEnd ∧ ∀ i ∈ post, (m.res s).rEnd < (m.res i).rStart := by
  have hranges := hok.ranges
  rw [Manager.ranges, hlist, List.map_append, List.map_cons] at hranges
  rcases Ranges.append.mp hranges with ⟨-, hright, hlt⟩
  refine ⟨?_, hright.nonempty _ List.mem_cons_self, ?_⟩
  · intro i hi
    exact hlt _ (List.mem_map_of_mem hi) _ List.mem_cons_self
  · intro i hi
    exact (List.pairwise_cons.mp hright.order).1 _ (List.mem_map_of_mem hi)

end Groups

/-- A change of neighbours. The entries `mid` become those of `es`, old ones or new
    ones, and may cover numbers of `X` more, which lie between the entries around. -/
structure Change (m m' : Manager) (pre mid : List Nat) (es : List (Nat × Resource))
    (post : List Nat) (X : Set Nat) : Prop where
  before : m.rmList = pre ++ mid ++ post
  after : m'.rmList = pre ++ es.map Prod.fst ++ post
  entries : ∀ e ∈ es, m'.res e.1 = e.2
  frame : ∀ i, i ∉ mid → i < m.nextRes → m'.res i = m.res i
  next : m.nextRes ≤ m'.nextRes := by exact le_rfl
  heads : m'.heads = m.heads := by rfl
  nextHead : m'.nextHead = m.nextHead := by rfl
  nodup : (es.map Prod.fst).Nodup := by simp
  source : ∀ e ∈ es, e.1 ∈ mid ∨ m.nextRes ≤ e.1 ∧ e.1 < m'.nextRes := by simp
  unshared : ∀ i ∈ mid, Unshared m i
  plain : ∀ e ∈ es, e.2.rSharehead = none
  word : ∀ e ∈ es, e.2.rEnd < wordSize
  ranges : Ranges (es.map (fun e => (e.2.rStart, e.2.rEnd))) := by simp; omega
  extent : extent (es.map (fun e => (e.2.rStart, e.2.rEnd))) = Lib.extent (mid.map m.range) ∪ X := by
    ext x; simp [Manager.range]; omega
  left : ∀ i ∈ pre, ∀ x ∈ X, (m.res i).rEnd < x := by simp
  right : ∀ i ∈ post, ∀ x ∈ X, x < (m.res i).rStart := by simp

/-- The entries around a change are not among the changed ones. -/
theorem Change.outer (hc : Change m m' pre mid es post X) (hok : m.Core) (hi : i ∈ pre ∨ i ∈ post) :
    i ∉ mid ∧ i ∉ es.map Prod.fst ∧ m'.res i = m.res i := by
  have hnodup := hok.nodup
  rw [hc.before, List.append_assoc, List.nodup_append] at hnodup
  rcases hnodup with ⟨-, hrest, hdisj⟩
  have hdisj' := (List.nodup_append.mp hrest).2.2
  have hmem : i ∈ m.rmList := by
    rw [hc.before, List.mem_append, List.mem_append]
    tauto
  have hmid : i ∉ mid := by
    rcases hi with hi | hi
    · exact fun h => hdisj i hi i (List.mem_append_left post h) rfl
    · exact fun h => hdisj' i h i hi rfl
  refine ⟨hmid, ?_, hc.frame i hmid (hok.fresh i hmem)⟩
  intro h
  rcases List.mem_map.mp h with ⟨e, he, rfl⟩
  rcases hc.source e he with h | h
  · exact hmid h
  · have := hok.fresh e.1 hmem
    omega

theorem Manager.Core.rewrite (hok : m.Core) (hc : Change m m' pre mid es post X) :
    m'.Core ∧ extent m'.ranges = extent m.ranges ∪ X := by
  have hnodup := hok.nodup
  rw [hc.before, List.append_assoc, List.nodup_append] at hnodup
  rcases hnodup with ⟨hpre, hrest, hdisj⟩
  have hpost := (List.nodup_append.mp hrest).2.1
  have hin : ∀ i, i ∈ pre ∨ i ∈ mid ∨ i ∈ post → i ∈ m.rmList := by
    intro i hi
    rw [hc.before, List.mem_append, List.mem_append]
    tauto
  have houter : ∀ i, i ∈ pre ∨ i ∈ post →
      i ∉ mid ∧ i ∉ es.map Prod.fst ∧ m'.res i = m.res i := fun i hi => hc.outer hok hi
  have hmap : ∀ l : List Nat, (∀ i ∈ l, i ∈ pre ∨ i ∈ post) → l.map m'.range = l.map m.range := by
    intro l hl
    refine List.map_congr_left (fun i hi => ?_)
    rw [Manager.range, Manager.range, (houter i (hl i hi)).2.2]
  have hranges := hok.ranges
  rw [Manager.ranges, hc.before, List.map_append, List.map_append] at hranges
  have hnew := hranges.replace_of hc.ranges hc.extent
    (by
      intro r hr x hx
      rcases List.mem_map.mp hr with ⟨i, hi, rfl⟩
      exact hc.left i hi x hx)
    (by
      intro r hr x hx
      rcases List.mem_map.mp hr with ⟨i, hi, rfl⟩
      exact hc.right i hi x hx)
  have hafter : m'.ranges = pre.map m.range ++ es.map (fun e => (e.2.rStart, e.2.rEnd)) ++
      post.map m.range := by
    have hes : (es.map Prod.fst).map m'.range = es.map (fun e => (e.2.rStart, e.2.rEnd)) := by
      rw [List.map_map]
      refine List.map_congr_left (fun e he => ?_)
      rw [comp_apply, Manager.range, hc.entries e he]
    rw [Manager.ranges, hc.after, List.map_append, List.map_append, hes,
      hmap pre (fun i hi => .inl hi), hmap post (fun i hi => .inr hi)]
  have hbefore : m.ranges = pre.map m.range ++ mid.map m.range ++ post.map m.range := by
    rw [Manager.ranges, hc.before, List.map_append, List.map_append]
  have hcases : ∀ i, i ∈ m'.rmList → (∃ e ∈ es, e.1 = i) ∨ (i ∈ pre ∨ i ∈ post) := by
    intro i hi
    rw [hc.after, List.mem_append, List.mem_append, List.mem_map] at hi
    rcases hi with (hi | hi) | hi
    · exact .inr (.inl hi)
    · exact .inl hi
    · exact .inr (.inr hi)
  -- What is shared is around the change, or on no list.
  have hsame : ∀ i h, i ∈ m.heads h → m'.res i = m.res i ∧ (i ∈ m'.rmList ↔ i ∈ m.rmList) := by
    intro i h hi
    have hmid : i ∉ mid := fun hin => hc.unshared i hin h hi
    rcases hok.group hi with ⟨lead, hg⟩
    have hlt := hg.fresh i hi
    have hmid' : i ∉ es.map Prod.fst := by
      intro hin
      rcases List.mem_map.mp hin with ⟨e, he, rfl⟩
      rcases hc.source e he with hin | hin
      · exact hmid hin
      · omega
    refine ⟨hc.frame i hmid hlt, ?_⟩
    rw [hc.after, hc.before]
    simp only [List.mem_append, hmid, hmid', or_false]
  refine ⟨⟨?_, ?_, ?_, ?_, ?_, ?_, ?_⟩, ?_⟩
  · rw [hc.after, List.append_assoc, List.nodup_append]
    refine ⟨hpre, List.nodup_append.mpr ⟨hc.nodup, hpost, ?_⟩, ?_⟩
    · rintro i hi j hj rfl
      exact (houter i (.inr hj)).2.1 hi
    rintro i hi j hj rfl
    rcases List.mem_append.mp hj with hj | hj
    · exact (houter i (.inl hi)).2.1 hj
    · exact hdisj i hi i (List.mem_append_right mid hj) rfl
  · intro i hi
    rcases hcases i hi with ⟨e, he, rfl⟩ | hi
    · rcases hc.source e he with hi | hi
      · exact lt_of_lt_of_le (hok.fresh e.1 (hin e.1 (.inr (.inl hi)))) hc.next
      · exact hi.2
    · exact lt_of_lt_of_le (hok.fresh i (hin i (by tauto))) hc.next
  · rw [hafter]
    exact hnew.1
  · intro i hi
    rcases hcases i hi with ⟨e, he, rfl⟩ | hi
    · rw [hc.entries e he]
      exact hc.word e he
    · rw [(houter i hi).2.2]
      exact hok.word i (hin i (by tauto))
  · intro h
    rcases hok.groups h with hnil | ⟨lead, hg⟩
    · exact .inl (by rw [hc.heads]; exact hnil)
    refine .inr ⟨lead, hg.frame (by rw [hc.heads]) hc.next ?_ ?_⟩
    · exact fun i hi => (hsame i h hi).1
    · exact fun i hi => (hsame i h hi).2
  · intro i hi h hhead
    rcases hcases i hi with ⟨e, he, rfl⟩ | hi
    · rw [hc.entries e he, hc.plain e he] at hhead
      cases hhead
    rw [(houter i hi).2.2] at hhead
    rw [hc.heads]
    exact hok.shared i (hin i (by tauto)) h hhead
  · intro h hle
    rw [hc.nextHead] at hle
    rw [hc.heads]
    exact hok.freshHead h hle
  · rw [hafter, hbefore]
    exact hnew.2

/-- A change of neighbours keeps the invariant. -/
theorem Manager.Ok.rewrite (hok : m.Ok) (hc : Change m m' pre mid es post X) :
    m'.Ok ∧ extent m'.ranges = extent m.ranges ∪ X := by
  rcases hok.toCore.rewrite hc with ⟨hcore, hcov⟩
  exact ⟨⟨hcore, by rw [hc.heads]; exact hok.two⟩, hcov⟩

/-- The same for a change that covers nothing more. -/
theorem Manager.Ok.keep (hok : m.Ok) (hc : Change m m' pre mid es post ∅) :
    m'.Ok ∧ extent m'.ranges = extent m.ranges := by
  have hnew := hok.rewrite hc
  rwa [Set.union_empty] at hnew

/-! ## Elementary changes -/

section Elementary

variable {m : Manager} {pre post : List Nat}

/-- Neighbours that are not shared become one entry, in the place of one of them. -/
theorem Change.join {mid l : List Nat} {k : Nat} {e : Resource} {X : Set Nat} (hok : m.Core)
    (hlist : m.rmList = pre ++ mid ++ post) (hun : ∀ i ∈ mid, Unshared m i) (hk : k ∈ mid)
    (hl : l = pre ++ k :: post) (hhead : e.rSharehead = (m.res k).rSharehead)
    (hword : e.rEnd < wordSize) (hle : e.rStart ≤ e.rEnd)
    (hext : Lib.extent [(e.rStart, e.rEnd)] = Lib.extent (mid.map m.range) ∪ X)
    (hleft : ∀ i ∈ pre, ∀ x ∈ X, (m.res i).rEnd < x)
    (hright : ∀ i ∈ post, ∀ x ∈ X, x < (m.res i).rStart) :
    Change m { m.put k e with rmList := l } pre mid [(k, e)] post X where
  before := hlist
  after := by simp [hl]
  entries := by simp [Manager.put]
  frame := by
    intro i hi _
    have hne : i ≠ k := fun heq => hi (heq ▸ hk)
    simp [Manager.put, hne]
  next := le_rfl
  heads := rfl
  nextHead := rfl
  nodup := by simp
  source := by simp [hk]
  unshared := hun
  plain := by
    have hkin : k ∈ m.rmList := by simp [hlist, hk]
    simp [hhead, hok.sharehead_of_unshared hkin (hun k hk)]
  word := by simp [hword]
  ranges := by simp [hle]
  extent := hext
  left := hleft
  right := hright

section

variable (hok : m.Core) (hlist : m.rmList = pre ++ a :: b :: post) (htouch : (m.res a).rEnd + 1 = (m.res b).rStart)
include hok hlist htouch

/-- An entry takes over the one before it, which touches it. -/
theorem absorb_prev (ha : Unshared m a) (hb : Unshared m b) :
    Change m ((m.setStart b (m.res a).rStart).remove a) pre [a, b]
      [(b, { m.res b with rStart := (m.res a).rStart })] post ∅ := by
  have hnodup := hok.nodup
  rw [hlist] at hnodup
  have hself := (hok.lt_of_split hlist).2.1
  have hbself := (hok.lt_of_split (show m.rmList = pre ++ [a] ++ b :: post by simp [hlist])).2.1
  refine .join hok (by simp [hlist]) (by simp [ha, hb]) (by simp) ?_ rfl
    (hok.word b (by simp [hlist])) (by dsimp only; omega) ?_ (by simp) (by simp)
  · show m.rmList.erase a = _
    rw [hlist, erase_split a pre (b :: post) (notMem_front hnodup)]
  · ext x
    simp [Manager.range]
    omega

/-- An entry takes over the one behind it, which touches it. -/
theorem absorb_next (ha : Unshared m a) (hb : Unshared m b) :
    Change m ((m.setEnd a (m.res b).rEnd).remove b) pre [a, b]
      [(a, { m.res a with rEnd := (m.res b).rEnd })] post ∅ := by
  have hnodup := hok.nodup
  have hlist' : m.rmList = pre ++ [a] ++ b :: post := by simp [hlist]
  rw [hlist'] at hnodup
  have hself := (hok.lt_of_split hlist).2.1
  have hbself := (hok.lt_of_split hlist').2.1
  refine .join hok (by simp [hlist]) (by simp [ha, hb]) (by simp) ?_ rfl
    (hok.word b (by simp [hlist])) (by dsimp only; omega) ?_ (by simp) (by simp)
  · show m.rmList.erase b = _
    rw [hlist', erase_split b (pre ++ [a]) post (notMem_front hnodup)]
    simp
  · ext x
    simp [Manager.range]
    omega

/-- The bound between two entries that touch is moved. -/
theorem move_bound (ha : Unshared m a) (hb : Unshared m b)
    (hxa : (m.res a).rStart ≤ x) (hxb : x < (m.res b).rEnd) :
    Change m ((m.setEnd a x).setStart b (x + 1)) pre [a, b]
      [(a, { m.res a with rEnd := x }), (b, { m.res b with rStart := x + 1 })] post ∅ := by
  have hnodup := hok.nodup
  have hlist' : m.rmList = pre ++ [a] ++ b :: post := by simp [hlist]
  rw [hlist'] at hnodup
  have hab : a ≠ b := by
    intro heq
    exact notMem_front hnodup (by simp [heq])
  have hself := (hok.lt_of_split hlist).2.1
  have hbself := (hok.lt_of_split hlist').2.1
  have hain : a ∈ m.rmList := by simp [hlist]
  have hbin : b ∈ m.rmList := by simp [hlist]
  have hword := hok.word b hbin
  exact
    { before := by simp [hlist]
      after := by simp [Manager.setEnd, Manager.setStart, Manager.put, hlist]
      entries := by simp [Manager.setEnd, Manager.setStart, Manager.put, hab, hab.symm]
      frame := by
        intro i hi _
        simp only [List.mem_cons, not_or] at hi
        simp [Manager.setEnd, Manager.setStart, Manager.put, hi.1, hi.2.1]
      next := le_rfl
      heads := rfl
      nextHead := rfl
      nodup := by simp [hab]
      source := by simp
      unshared := by
        simp only [List.forall_mem_cons]
        exact ⟨ha, hb, by simp⟩
      plain := by simp [hok.sharehead_of_unshared hain ha, hok.sharehead_of_unshared hbin hb]
      word := by
        simp only [List.forall_mem_cons]
        exact ⟨by omega, hword, by simp⟩
      ranges := by simp; omega
      extent := by ext x; simp [Manager.range]; omega
      left := by simp
      right := by simp }

end

section

variable (hok : m.Core) (hlist : m.rmList = pre ++ r :: post) (hun : Unshared m r)
include hok hlist hun

/-- The front of an entry becomes an entry of its own. -/
theorem split_front (f : Flags) (hx : (m.res r).rStart ≤ x) (hxe : x < (m.res r).rEnd) :
    Change m (((m.setStart r (x + 1)).alloc ⟨(m.res r).rStart, x, f, none⟩).1.insertBefore r m.nextRes)
      pre [r] [(m.nextRes, ⟨(m.res r).rStart, x, f, none⟩), (r, { m.res r with rStart := x + 1 })]
      post ∅ := by
  have hnodup := hok.nodup
  rw [hlist] at hnodup
  have hrin : r ∈ m.rmList := by simp [hlist]
  have hne : r ≠ m.nextRes := ne_of_lt (hok.fresh r hrin)
  have hword := hok.word r hrin
  exact
    { before := by simp [hlist]
      after := by
        show insertBefore m.rmList r m.nextRes = _
        rw [hlist, insertBefore_split r m.nextRes pre post (notMem_front hnodup)]
        simp
      entries := by
        simp [Manager.alloc, Manager.setStart, Manager.put, Manager.insertBefore, hne]
      frame := by
        intro i hi hlt
        have hin : i ≠ m.nextRes := by omega
        rw [List.mem_singleton] at hi
        simp [Manager.alloc, Manager.setStart, Manager.put, Manager.insertBefore, hi, hin]
      next := Nat.le_succ _
      heads := rfl
      nextHead := rfl
      nodup := by simp [hne.symm]
      source := by simp [Manager.alloc, Manager.setStart, Manager.put, Manager.insertBefore]
      unshared := by simpa using hun
      plain := by simp [hok.sharehead_of_unshared hrin hun]
      word := by
        simp only [List.forall_mem_cons]
        exact ⟨by omega, hword, by simp⟩
      ranges := by simp; omega
      extent := by ext x; simp [Manager.range]; omega
      left := by simp
      right := by simp }

/-- The back of an entry becomes an entry of its own. -/
theorem split_back (f : Flags) (hx : (m.res r).rStart ≤ x) (hxe : x < (m.res r).rEnd) :
    Change m (((m.setEnd r x).alloc ⟨x + 1, (m.res r).rEnd, f, none⟩).1.insertAfter r m.nextRes)
      pre [r] [(r, { m.res r with rEnd := x }), (m.nextRes, ⟨x + 1, (m.res r).rEnd, f, none⟩)]
      post ∅ := by
  have hnodup := hok.nodup
  rw [hlist] at hnodup
  have hrin : r ∈ m.rmList := by simp [hlist]
  have hne : r ≠ m.nextRes := ne_of_lt (hok.fresh r hrin)
  have hword := hok.word r hrin
  exact
    { before := by simp [hlist]
      after := by
        show insertAfter m.rmList r m.nextRes = _
        rw [hlist, insertAfter_split r m.nextRes pre post (notMem_front hnodup)]
        simp
      entries := by
        simp [Manager.alloc, Manager.setEnd, Manager.put, Manager.insertAfter, hne]
      frame := by
        intro i hi hlt
        have hin : i ≠ m.nextRes := by omega
        rw [List.mem_singleton] at hi
        simp [Manager.alloc, Manager.setEnd, Manager.put, Manager.insertAfter, hi, hin]
      next := Nat.le_succ _
      heads := rfl
      nextHead := rfl
      nodup := by simp [hne]
      source := by simp [Manager.alloc, Manager.setEnd, Manager.put, Manager.insertAfter]
      unshared := by simpa using hun
      plain := by simp [hok.sharehead_of_unshared hrin hun]
      word := by
        simp only [List.forall_mem_cons]
        exact ⟨by omega, hword, by simp⟩
      ranges := by simp; omega
      extent := by ext x; simp [Manager.range]; omega
      left := by simp
      right := by simp }

/-- Flags of an entry that is not shared. -/
theorem set_flags (f : Flags) :
    Change m (m.setFlags r f) pre [r] [(r, { m.res r with rFlags := f })] post ∅ := by
  have hself := (hok.lt_of_split hlist).2.1
  exact .join hok (by simp [hlist]) (List.forall_mem_singleton.mpr hun) (by simp) hlist rfl
    (hok.word r (by simp [hlist])) hself (by simp [Manager.range]) (by simp) (by simp)

end

end Elementary

end FreeBSDKern.Rman
