import FreeBSDKern.Rman.Reserve

/-!
# Who Holds What

A resource that somebody holds is allocated, and is on the list of the manager or on a
sharing list. A reservation that succeeds adds one holder, and a release takes one away.
Neither changes what the others hold, and the list stays tidy: no two of its free entries
touch.

So the allocated entries of the list have the bounds of what is held. An entry that is
shared is one of them for as long as one of its sharers is left.

## Main definitions

* `Holds`: A resource is held.
* `Granted`, `Returned`: What a reservation and a release do to what is held.

## Theorems

* `marked_iff`: The allocated entries.
* `Change.holds`, `Change.tidy`: The same for a change of neighbours.
* `reserve_granted`, `release_returned`: The two operations.
-/

namespace FreeBSDKern.Rman

open Lib Function

/-- A resource is held. -/
def Holds (m : Manager) (i : Nat) : Prop :=
  m.allocated i = true ∧ (i ∈ m.rmList ∨ ∃ h, i ∈ m.heads h)

/-- There is one holder more, and nobody else notices. -/
structure Granted (m m' : Manager) (i : Nat) : Prop where
  new : ¬Holds m i
  holds : ∀ j, Holds m' j ↔ Holds m j ∨ j = i
  same : ∀ j, Holds m j → m'.range j = m.range j
  tidy : Tidy (marks m) → Tidy (marks m')

/-- There is one holder less. -/
structure Returned (m m' : Manager) (r : Nat) : Prop where
  holds : ∀ j, Holds m' j ↔ Holds m j ∧ j ≠ r
  same : ∀ j, Holds m j → j ≠ r → m'.range j = m.range j
  tidy : Tidy (marks m) → Tidy (marks m')

section Holders

variable {m m' : Manager}

variable {i s h r : Nat} {nowait nowait' : Bool}

theorem Manager.Core.lt_of_holds (hok : m.Core) (h : Holds m i) : i < m.nextRes := by
  rcases h.2 with hi | ⟨h, hi⟩
  · exact hok.fresh i hi
  · rcases hok.group hi with ⟨lead, hg⟩
    exact hg.fresh i hi

theorem marks_ranges (m : Manager) : (marks m).map Prod.fst = m.ranges := by
  rw [marks, List.map_map]
  rfl

theorem Tidy.of_chain (hok : m.Core)
    (h : (marks m).IsChain (fun a b => ¬Joins a b)) : Tidy (marks m) := by
  refine ⟨?_, h⟩
  rw [marks_ranges]
  exact hok.ranges

/-- The allocated entries have the bounds of what is held. -/
theorem marked_iff (hok : m.Core) (r : Nat × Nat) :
    (r, true) ∈ marks m ↔ ∃ i, Holds m i ∧ m.range i = r := by
  rw [marks, List.mem_map]
  constructor
  · rintro ⟨i, hi, heq⟩
    rcases Prod.ext_iff.mp heq with ⟨hrange, halloc⟩
    exact ⟨i, ⟨halloc, Or.inl hi⟩, hrange⟩
  rintro ⟨i, ⟨halloc, hi | ⟨h, hi⟩⟩, hrange⟩
  · exact ⟨i, hi, Prod.ext hrange halloc⟩
  -- The first of the sharers is in the list.
  rcases hok.group hi with ⟨lead, hg⟩
  exact ⟨lead, hg.listed, Prod.ext ((hg.range i hi).symm.trans hrange) (hg.allocated lead hg.mem)⟩

/-! ## A change of neighbours -/

variable {pre mid post : List Nat} {es : List (Nat × Resource)}

section

variable (hc : Change m m' pre mid es post ∅) (hok : m.Core)
include hc hok

theorem Change.same {j : Nat} (hj : j ∉ mid)
    (h : Holds m j) : m'.res j = m.res j := hc.frame j hj (hok.lt_of_holds h)

/-- Who holds what after a change of neighbours. -/
theorem Change.holds (j : Nat) :
    Holds m' j ↔ (∃ e ∈ es, e.1 = j ∧ has e.2.rFlags rfAllocated = true) ∨ (j ∉ mid ∧ Holds m j) := by
  constructor
  · rintro ⟨halloc, hj | ⟨h, hj⟩⟩
    · rw [hc.after, List.mem_append, List.mem_append] at hj
      have hround : j ∈ pre ∨ j ∈ post → j ∉ mid ∧ Holds m j := by
        intro hin
        rcases hc.outer hok hin with ⟨hmid, -, hres⟩
        rw [Manager.allocated, hres] at halloc
        refine ⟨hmid, halloc, Or.inl ?_⟩
        rw [hc.before, List.mem_append, List.mem_append]
        tauto
      rcases hj with (hj | hj) | hj
      · exact Or.inr (hround (Or.inl hj))
      · rcases List.mem_map.mp hj with ⟨e, he, rfl⟩
        rw [Manager.allocated, hc.entries e he] at halloc
        exact Or.inl ⟨e, he, rfl, halloc⟩
      · exact Or.inr (hround (Or.inr hj))
    rw [hc.heads] at hj
    have hmid : j ∉ mid := fun hin => hc.unshared j hin h hj
    rcases hok.group hj with ⟨lead, hg⟩
    exact Or.inr ⟨hmid, hg.allocated j hj, Or.inr ⟨h, hj⟩⟩
  rintro (⟨e, he, rfl, halloc⟩ | ⟨hmid, hold⟩)
  · refine ⟨?_, Or.inl ?_⟩
    · rw [Manager.allocated, hc.entries e he]
      exact halloc
    · rw [hc.after, List.mem_append, List.mem_append]
      exact Or.inl (Or.inr (List.mem_map_of_mem he))
  have hres := hc.same hok hmid hold
  rcases hold with ⟨halloc, hj⟩
  refine ⟨by rwa [Manager.allocated, hres], ?_⟩
  rcases hj with hj | ⟨h, hj⟩
  · rw [hc.before, List.mem_append, List.mem_append] at hj
    rw [hc.after, List.mem_append, List.mem_append]
    rcases hj with (hj | hj) | hj
    · exact Or.inl (Or.inl (Or.inl hj))
    · exact absurd hj hmid
    · exact Or.inl (Or.inr hj)
  · rw [hc.heads]
    exact Or.inr ⟨h, hj⟩

/-- The list around a change, before and after. -/
theorem Change.marks_eq :
    marks m = pre.map (fun i => mark (m.res i)) ++ mid.map (fun i => mark (m.res i)) ++
      post.map (fun i => mark (m.res i)) ∧
    marks m' = pre.map (fun i => mark (m.res i)) ++ es.map (fun e => mark e.2) ++
      post.map (fun i => mark (m.res i)) := by
  have hes : (es.map Prod.fst).map (fun i => mark (m'.res i)) = es.map (fun e => mark e.2) := by
    rw [List.map_map]
    refine List.map_congr_left (fun e he => ?_)
    rw [comp_apply, hc.entries e he]
  have hround : ∀ l : List Nat, (∀ i ∈ l, i ∈ pre ∨ i ∈ post) →
      l.map (fun i => mark (m'.res i)) = l.map (fun i => mark (m.res i)) := by
    intro l hl
    refine List.map_congr_left (fun i hi => ?_)
    rw [(hc.outer hok (hl i hi)).2.2]
  constructor
  · rw [marks, hc.before, List.map_append, List.map_append]
  · rw [marks, hc.after, List.map_append, List.map_append, hes,
      hround pre (fun i hi => Or.inl hi), hround post (fun i hi => Or.inr hi)]

/-- A change of neighbours that do not join those around keeps the list tidy. -/
theorem Change.tidy (h : Tidy (marks m))
    (hne : es ≠ []) (hchain : (es.map (fun e => mark e.2)).IsChain (fun a b => ¬Joins a b))
    (hleft : ∀ a ∈ (pre.map (fun i => mark (m.res i))).getLast?,
      ∀ b ∈ (es.map (fun e => mark e.2)).head?, ¬Joins a b)
    (hright : ∀ a ∈ (es.map (fun e => mark e.2)).getLast?,
      ∀ b ∈ (post.map (fun i => mark (m.res i))).head?, ¬Joins a b) : Tidy (marks m') := by
  rcases hc.marks_eq hok with ⟨hold, hnew⟩
  rw [hold] at h
  rw [hnew]
  have hfst : (es.map (fun e => mark e.2)).map Prod.fst =
      es.map (fun e => (e.2.rStart, e.2.rEnd)) := by
    rw [List.map_map]
    rfl
  have hfst' : (mid.map (fun i => mark (m.res i))).map Prod.fst = mid.map m.range := by
    rw [List.map_map]
    rfl
  refine h.replace ⟨?_, hchain⟩ (fun hnil => hne (List.map_eq_nil_iff.mp hnil)) ?_ hleft hright
  · rw [hfst]
    exact hc.ranges
  · rw [hfst, hfst', hc.extent, Set.union_empty]

/-! ## Reservations -/

end

variable {q : Request}

/-- The pieces of a region join what the region did, at most. -/
theorem pieces_chain {first last a b : Nat} {x : Marked} :
    (pieces first last a b).IsChain (fun a b => ¬Joins a b) ∧
      (¬Joins x ((first, last), false) → ∀ y ∈ (pieces first last a b).head?, ¬Joins x y) ∧
      (¬Joins ((first, last), false) x → ∀ y ∈ (pieces first last a b).getLast?, ¬Joins y x) := by
  unfold pieces Joins
  by_cases hfront : first < a
  · by_cases hback : b < last
    · rw [if_pos hfront, if_pos hback]
      simp
    · rw [if_pos hfront, if_neg hback]
      simp
  by_cases hback : b < last
  · rw [if_neg hfront, if_pos hback]
    simp
  · rw [if_neg hfront, if_neg hback]
    simp

/-- What is cut out of a free entry is held. -/
theorem carve_granted (hok : m.Core) {rstart : Nat} (hs : s ∈ m.rmList)
    (hfree : m.allocated s = false) (hcount : 1 ≤ q.count) (hcountW : q.count < wordSize)
    (hstart : (m.res s).rStart ≤ rstart) (hroom : rstart + q.count ≤ (m.res s).rEnd + 1)
    (hi : (carve m q s rstart nowait nowait').2 = some i) :
    Granted m (carve m q s rstart nowait nowait').1 i := by
  rcases carve_change hok hs hfree hcount hcountW hstart hroom hi with
    ⟨pre, es, post, hc, hpieces, halloc, hin⟩
  have hsnot : ¬Holds m s := by
    intro h
    have := h.1
    rw [hfree] at this
    exact absurd this Bool.false_ne_true
  rcases List.mem_map.mp hin with ⟨e, he, rfl⟩
  constructor
  case new =>
    intro h
    rcases hc.source e he with heq | ⟨hfresh, -⟩
    · rw [List.mem_singleton] at heq
      rw [heq] at h
      exact hsnot h
    · exact Nat.not_lt.mpr hfresh (hok.lt_of_holds h)
  case holds =>
    intro j
    rw [hc.holds hok]
    constructor
    · rintro (⟨e', he', rfl, hflag⟩ | ⟨-, hold⟩)
      · exact Or.inr ((halloc e' he').mp hflag)
      · exact Or.inl hold
    rintro (hold | rfl)
    · refine Or.inr ⟨fun hmid => ?_, hold⟩
      rw [List.mem_singleton] at hmid
      rw [hmid] at hold
      exact hsnot hold
    · exact Or.inl ⟨e, he, rfl, (halloc e he).mpr rfl⟩
  case same =>
    intro j hold
    have hmid : j ∉ [s] := by
      intro hmid
      rw [List.mem_singleton] at hmid
      rw [hmid] at hold
      exact hsnot hold
    rw [Manager.range, hc.same hok hmid hold]
    rfl
  case tidy =>
  intro h
  have hmark : mark (m.res s) = (((m.res s).rStart, (m.res s).rEnd), false) :=
    Prod.ext rfl hfree
  have hchain := h.chain
  rw [(hc.marks_eq hok).1, List.map_cons, List.map_nil, hmark] at hchain
  refine hc.tidy hok h (List.ne_nil_of_mem he) ?_ ?_ ?_
  · rw [hpieces]
    exact (pieces_chain (x := mark (m.res s))).1
  · intro a ha
    rw [hpieces]
    refine pieces_chain.2.1 ?_
    exact (List.isChain_append.mp hchain.left_of_append).2.2 a ha _ rfl
  intro a ha b hb
  rw [hpieces] at ha
  refine pieces_chain.2.2 ?_ a ha
  refine (List.isChain_append.mp hchain).2.2 _ ?_ b hb
  rw [List.getLast?_append_of_ne_nil _ (List.cons_ne_nil _ _)]
  rfl

/-- A change of one entry that keeps its bounds and whether it is allocated, and of the
    sharing lists, where nothing is lost or new. -/
theorem holds_update {e : Resource} {heads : Nat → List Nat} {n : Nat}
    (hmark : mark e = mark (m.res s))
    (hplace : ∀ j, (j ∈ m.rmList ∨ ∃ h, j ∈ heads h) ↔ j ∈ m.rmList ∨ ∃ h, j ∈ m.heads h) :
    (∀ j, Holds { m.put s e with heads := heads, nextHead := n } j ↔ Holds m j) ∧
      (∀ j, ({ m.put s e with heads := heads, nextHead := n } : Manager).range j = m.range j) ∧
      marks { m.put s e with heads := heads, nextHead := n } = marks m := by
  have hall := mark_update hmark
  refine ⟨fun j => ?_, fun j => congrArg Prod.fst (hall j), List.map_congr_left (fun j _ => hall j)⟩
  exact and_congr (congrArg (· = true) (congrArg Prod.snd (hall j))).to_iff (hplace j)

/-- Setting up a sharing list does not change who holds what. -/
theorem found_holds (hok : m.Core) (hs : s ∈ m.rmList) :
    (∀ j, Holds (found m s) j ↔ Holds m j) ∧ (∀ j, (found m s).range j = m.range j) ∧
      marks (found m s) = marks m := by
  refine holds_update (Prod.ext rfl (has_or (m.res s).rFlags (by decide))) (fun j => ⟨?_, ?_⟩)
  · rintro (hj | ⟨h, hj⟩)
    · exact Or.inl hj
    by_cases heq : h = m.nextHead
    · rw [heq, update_self, List.mem_singleton] at hj
      exact Or.inl (hj ▸ hs)
    · rw [update_of_ne heq] at hj
      exact Or.inr ⟨h, hj⟩
  rintro (hj | ⟨h, hj⟩)
  · exact Or.inl hj
  refine Or.inr ⟨h, ?_⟩
  rw [update_of_ne (fun heq => ?_)]
  · exact hj
  · rw [heq, hok.freshHead _ le_rfl] at hj
    exact absurd hj List.not_mem_nil

/-- A sharer that is added holds the resource too. -/
theorem join_granted (hok : m.Core) {f : Flags} (halloc : has f rfAllocated = true) :
    Granted m (join m s h f) m.nextRes := by
  have hsub : ∀ h' j, j ∈ m.heads h' → j ∈ (join m s h f).heads h' := by
    intro h' j hj
    by_cases heq : h' = h
    · rw [heq, join_heads_self]
      exact List.mem_cons_of_mem _ (heq ▸ hj)
    · rw [join_heads heq]
      exact hj
  constructor
  case new => exact fun hold => lt_irrefl _ (hok.lt_of_holds hold)
  case holds =>
    intro j
    constructor
    · rintro ⟨hj, hin⟩
      have hplace : j = m.nextRes ∨ j ∈ m.rmList ∨ ∃ h', j ∈ m.heads h' := by
        rcases hin with hin | ⟨h', hin⟩
        · exact Or.inr (Or.inl hin)
        by_cases heq : h' = h
        · rw [heq, join_heads_self, List.mem_cons] at hin
          exact hin.imp id (fun hin => Or.inr ⟨h, hin⟩)
        · rw [join_heads heq] at hin
          exact Or.inr (Or.inr ⟨h', hin⟩)
      rcases hplace with rfl | hplace
      · exact Or.inr rfl
      have hlt : j < m.nextRes := by
        rcases hplace with hin | ⟨h', hin⟩
        · exact hok.fresh j hin
        · rcases hok.group hin with ⟨lead, hg⟩
          exact hg.fresh j hin
      rw [Manager.allocated, join_res hlt] at hj
      exact Or.inl ⟨hj, hplace⟩
    rintro (hold | rfl)
    · refine ⟨?_, hold.2.imp id (Exists.imp fun h' hin => hsub h' j hin)⟩
      rw [Manager.allocated, join_res (hok.lt_of_holds hold)]
      exact hold.1
    refine ⟨?_, Or.inr ⟨h, by rw [join_heads_self]; exact List.mem_cons_self⟩⟩
    rw [Manager.allocated, join_res_new]
    exact halloc
  case same =>
    intro j hold
    rw [Manager.range, join_res (hok.lt_of_holds hold)]
    rfl
  case tidy =>
  have heq : marks (join m s h f) = marks m :=
    List.map_congr_left (fun j hj => by rw [join_res (hok.fresh j hj)])
  rw [heq]
  exact id

/-- A new sharer holds the resource. -/
theorem share_granted (hok : m.Core) (hs : s ∈ m.rmList) (halloc : m.allocated s = true)
    (hshare : has (m.res s).rFlags rfShareable = true)
    (hi : (share m q s nowait nowait').2 = some i) :
    Granted m (share m q s nowait nowait').1 i := by
  have hnew := (newFlags_has q).1
  cases nowait with
  | false => exact absurd hi.symm (Option.some_ne_none _)
  | true =>
    cases hhead : (m.res s).rSharehead with
    | some h =>
      have hfirst : i = m.nextRes := by
        simp only [share, hhead] at hi
        exact (Option.some.inj hi).symm
      rw [share_join hhead, hfirst]
      exact join_granted hok hnew
    | none =>
      cases nowait' with
      | false =>
        simp only [share, hhead] at hi
        exact absurd hi.symm (Option.some_ne_none _)
      | true =>
        have hfirst : i = (found m s).nextRes := by
          simp only [share, hhead] at hi
          exact (Option.some.inj hi).symm
        rw [share_found hhead, hfirst]
        rcases found_holds hok hs with ⟨hholds, hrange, hmarks⟩
        have hg := join_granted (s := s) (h := m.nextHead)
          (found_ok hok hs hhead halloc hshare).1 hnew
        refine ⟨fun h => hg.new ((hholds _).mpr h), fun j => ?_, fun j h => ?_, fun h => ?_⟩
        · rw [hg.holds, hholds]
        · rw [hg.same j ((hholds j).mpr h), hrange]
        · exact hg.tidy (by rwa [hmarks])

/-- A reservation that succeeds adds a holder, and one that fails does nothing. -/
theorem reserve_granted (hok : m.Core) (hw : q.Words) (hcond : ReserveOk m q)
    {r : Manager × Option Nat} (h : reserveResourceBound m q nowait nowait' = some r) :
    match r.2 with
    | none => r.1 = m
    | some i => Granted m r.1 i := by
  rcases reserve_cases hok hw hcond h with rfl |
    ⟨s, rstart, hs, hfree, hcount, hstart, hroom, rfl⟩ | ⟨s, hs, halloc, hshare, -, rfl⟩
  · rfl
  · cases hi : (carve m q s rstart nowait nowait').2 with
    | none => exact carve_none hi
    | some i => exact carve_granted hok hs hfree hcount hw.count hstart hroom hi
  cases hi : (share m q s nowait nowait').2 with
  | none => exact share_none hi
  | some i => exact share_granted hok hs halloc hshare hi

/-! ## Releases -/

/-- A resource that is not shared is given back. -/
theorem releasePlain_returned (hok : m.Core) (hr : r ∈ m.rmList)
    (hnone : (m.res r).rSharehead = none) : Returned m (releasePlain m r) r := by
  rcases releasePlain_change hok hr hnone with ⟨pre, e, post, hc, hmark⟩
  have hfree : has e.2.rFlags rfAllocated = false := congrArg Prod.snd hmark
  have hprev : ∀ s, mergePrev m r = some s → m.allocated s = false := by
    intro s hs
    have hpred := of_decide_eq_true (Option.filter_eq_some_iff.mp hs).2
    exact Bool.not_eq_true' _ ▸ hpred.1
  have hnext : ∀ t, mergeNext m r = some t → m.allocated t = false := by
    intro t ht
    have hpred := of_decide_eq_true (Option.filter_eq_some_iff.mp ht).2
    exact Bool.not_eq_true' _ ▸ hpred.1
  -- Of the entries that are merged only the resource was held.
  have hmid : ∀ j, Holds m j →
      (j ∉ (mergePrev m r).toList ++ r :: (mergeNext m r).toList ↔ j ≠ r) := by
    intro j hj
    rw [List.mem_append, List.mem_cons, Option.mem_toList, Option.mem_toList]
    constructor
    · exact fun hnot heq => hnot (Or.inr (Or.inl heq))
    rintro hne (hs | heq | ht)
    · exact absurd ((hprev j hs).symm.trans hj.1) Bool.false_ne_true
    · exact hne heq
    · exact absurd ((hnext j ht).symm.trans hj.1) Bool.false_ne_true
  constructor
  case holds =>
    intro j
    rw [hc.holds hok]
    constructor
    · rintro (⟨e', he', -, hflag⟩ | ⟨hout, hj⟩)
      · rw [List.mem_singleton] at he'
        rw [he', hfree] at hflag
        exact absurd hflag Bool.false_ne_true
      · exact ⟨hj, (hmid j hj).mp hout⟩
    · rintro ⟨hj, hne⟩
      exact Or.inr ⟨(hmid j hj).mpr hne, hj⟩
  case same =>
    intro j hj hne
    rw [Manager.range, hc.same hok ((hmid j hj).mpr hne) hj]
    rfl
  case tidy =>
  intro h
  have hlist := hc.before
  have hchain := h.chain
  rw [(hc.marks_eq hok).1] at hchain
  rcases List.isChain_append.mp hchain with ⟨hfront, -, hback⟩
  have hbegin := (List.isChain_append.mp hfront).2.2
  refine hc.tidy hok h (List.cons_ne_nil _ _) (List.isChain_singleton _) ?_ ?_
  · intro a ha b hb hjoin
    rw [List.map_cons, List.head?_cons, Option.mem_def, Option.some.injEq] at hb
    rw [← hb, hmark] at hjoin
    cases hs : mergePrev m r with
    | none =>
      rw [hs] at hlist hjoin
      rw [List.getLast?_map, Option.mem_map] at ha
      rcases ha with ⟨p, hp, rfl⟩
      have hlist' : m.rmList = pre ++ r :: ((mergeNext m r).toList ++ post) := by
        simp [hlist]
      exact mergePrev_none hok hlist' hs p hp hjoin.1 hjoin.2.2
    | some s =>
      rw [hs] at hbegin hjoin
      exact hbegin a ha (mark (m.res s)) rfl ⟨hjoin.1, hprev s hs, hjoin.2.2⟩
  intro a ha b hb hjoin
  rw [List.map_cons, List.map_nil, List.getLast?_singleton, Option.mem_def,
    Option.some.injEq] at ha
  rw [← ha, hmark] at hjoin
  cases ht : mergeNext m r with
  | none =>
    rw [ht] at hlist hjoin
    rw [List.head?_map, Option.mem_map] at hb
    rcases hb with ⟨t, ht', rfl⟩
    have hlist' : m.rmList = (pre ++ (mergePrev m r).toList) ++ r :: post := by
      simp [hlist]
    exact mergeNext_none hok hlist' ht t ht' hjoin.2.1 hjoin.2.2
  | some t =>
    rw [ht] at hback hjoin
    refine hback (mark (m.res t)) ?_ b hb ⟨hnext t ht, hjoin.2⟩
    simp

/-- After another one was appointed, or none had to be, the sharer holds nothing. -/
theorem withdrawn_returned (hok : m.Core) (hr : r ∈ m.heads h) (hs : s ∈ m.heads h) (hne : s ≠ r) :
    Returned m (withdrawn m r h s) r := by
  rcases hok.group hr with ⟨lead, hg⟩
  rcases withdrawn_ok hok hr hs hne with ⟨-, -, -, -, hheads⟩
  -- A sharer of another resource is not this one.
  have hother : ∀ h' j, h' ≠ h → j ∈ m.heads h' → j ≠ r := by
    intro h' j heq hj
    rcases hok.group hj with ⟨lead', hg'⟩
    exact hg.ne hg' heq hr hj
  have hheads' : ∀ h' j, j ∈ (withdrawn m r h s).heads h' ↔ j ∈ m.heads h' ∧ j ≠ r := by
    intro h' j
    rw [hheads]
    by_cases heq : h' = h
    · rw [heq, update_self, hg.nodup.mem_erase_iff]
      exact and_comm
    · rw [update_of_ne heq]
      exact ⟨fun hj => ⟨hj, hother h' j heq hj⟩, fun hj => hj.1⟩
  have hmark : ∀ j, mark ((withdrawn m r h s).res j) = mark (m.res j) := by
    intro j
    unfold withdrawn
    split
    case isTrue =>
      refine mark_update ?_ j
      exact Prod.ext rfl (has_or _ (by decide))
    case isFalse => rfl
  have halloc : ∀ j, (withdrawn m r h s).allocated j = m.allocated j :=
    fun j => congrArg Prod.snd (hmark j)
  have hlist : (∀ j, j ∈ (withdrawn m r h s).rmList ∨ (∃ h', j ∈ (withdrawn m r h s).heads h') ↔
      (j ∈ m.rmList ∨ ∃ h', j ∈ m.heads h') ∧ j ≠ r) ∧ marks (withdrawn m r h s) = marks m := by
    simp only [hheads']
    by_cases hf : has (m.res r).rFlags rfFirstshare = true
    · have hlead : r = lead := (hg.first r hr).mp hf
      rw [← hlead] at hg
      have hmem := appoint_mem hok hg hne
      have heq : withdrawn m r h s = appoint (leave m r h) r s := if_pos hf
      constructor
      · intro j
        rw [heq, hmem]
        constructor
        · rintro ((rfl | ⟨hj, hjr⟩) | ⟨h', hj, hjr⟩)
          · exact ⟨Or.inr ⟨h, hs⟩, hne⟩
          · exact ⟨Or.inl hj, hjr⟩
          · exact ⟨Or.inr ⟨h', hj⟩, hjr⟩
        rintro ⟨hj | ⟨h', hj⟩, hjr⟩
        · exact Or.inl (Or.inr ⟨hj, hjr⟩)
        · exact Or.inr ⟨h', hj, hjr⟩
      rcases appoint_list hok hg hne with ⟨pre, post, hlist, hlist'⟩
      have hsame : mark (m.res s) = mark (m.res r) :=
        Prod.ext (hg.range s hs) ((hg.allocated s hs).trans (hg.allocated r hr).symm)
      have hmap : ∀ l : List Nat, l.map (fun j => mark ((withdrawn m r h s).res j)) =
          l.map (fun j => mark (m.res j)) := fun l => List.map_congr_left (fun j _ => hmark j)
      rw [marks, hmap, heq, hlist', marks, hlist, List.map_append, List.map_append, List.map_cons,
        List.map_cons, hsame]
    have hlead : r ≠ lead := fun heq => hf ((hg.first r hr).mpr heq)
    have hout : r ∉ m.rmList := fun hin => hlead ((hg.unique r hr).mp hin)
    have heq : withdrawn m r h s = leave m r h := if_neg hf
    refine ⟨fun j => ?_, by rw [heq]; rfl⟩
    rw [heq]
    constructor
    · rintro (hj | ⟨h', hj, hjr⟩)
      · exact ⟨Or.inl hj, fun heq' => hout (heq' ▸ hj)⟩
      · exact ⟨Or.inr ⟨h', hj⟩, hjr⟩
    rintro ⟨hj | ⟨h', hj⟩, hjr⟩
    · exact Or.inl hj
    · exact Or.inr ⟨h', hj, hjr⟩
  refine ⟨fun j => ?_, fun j _ _ => congrArg Prod.fst (hmark j), fun htidy => by rwa [hlist.2]⟩
  rw [Holds, Holds, halloc, hlist.1, and_assoc]

/-- The one sharer that is left holds the resource as before. -/
theorem dissolve_holds (hg : Group m h s) (hone : m.heads h = [s]) :
    (∀ j, Holds (dissolve m h s) j ↔ Holds m j) ∧ (∀ j, (dissolve m h s).range j = m.range j) ∧
      marks (dissolve m h s) = marks m := by
  refine holds_update (Prod.ext rfl (has_andNot (m.res s).rFlags (by decide))) (fun j => ⟨?_, ?_⟩)
  · rintro (hj | ⟨h', hj⟩)
    · exact Or.inl hj
    by_cases heq : h' = h
    · rw [heq, update_self] at hj
      exact absurd hj List.not_mem_nil
    · rw [update_of_ne heq] at hj
      exact Or.inr ⟨h', hj⟩
  rintro (hj | ⟨h', hj⟩)
  · exact Or.inl hj
  by_cases heq : h' = h
  · rw [heq, hone, List.mem_singleton] at hj
    exact Or.inl (hj ▸ hg.listed)
  · exact Or.inr ⟨h', by rwa [update_of_ne heq]⟩

/-- A sharer gives back its part. -/
theorem releaseShared_returned (hok : m.Ok) (hr : r ∈ m.heads h)
    (hrel : releaseShared m r h = some m') : Returned m m' r := by
  rcases hok.erase_eq hr with ⟨s, others, hrest, hs, hne⟩
  have hret := withdrawn_returned hok.toCore hr hs hne
  rcases withdrawn_ok hok.toCore hr hs hne with ⟨lead, -, -, hgroup, hheads⟩
  rw [releaseShared_eq hrest, Option.some.injEq] at hrel
  rw [← hrel]
  split
  case isFalse => exact hret
  case isTrue hnil =>
  have hone : (withdrawn m r h s).heads h = [s] := by
    rw [hheads, update_self, hrest, hnil]
  have hlead : lead = s := by
    have hin := hgroup.mem
    rw [hone] at hin
    exact List.mem_singleton.mp hin
  rw [hlead] at hgroup
  rcases dissolve_holds hgroup hone with ⟨hholds, hrange, hmarks⟩
  refine ⟨fun j => (hholds j).trans (hret.holds j), fun j hj hjr => ?_, fun htidy => ?_⟩
  · rw [hrange, hret.same j hj hjr]
  · rw [hmarks]
    exact hret.tidy htidy

/-- A release takes a holder away. -/
theorem release_returned (hok : m.Ok) (hheld : Holds m r) (hrel : releaseResource m r = some m') :
    Returned m m' r := by
  -- The flag that is cleared first is none of those that matter here.
  rcases setFlags_core hok.toCore (r := r) (f := (m.res r).rFlags &&& ~~~rfActive)
    (has_andNot _ (by decide)) (has_andNot _ (by decide)) (has_andNot _ (by decide)) with ⟨hcore, -⟩
  have hmark : ∀ j, mark ((m.setFlags r ((m.res r).rFlags &&& ~~~rfActive)).res j) =
      mark (m.res j) :=
    mark_update (Prod.ext rfl (has_andNot (m.res r).rFlags (by decide)))
  have hholds : ∀ j, Holds (m.setFlags r ((m.res r).rFlags &&& ~~~rfActive)) j ↔ Holds m j :=
    fun j => and_congr_left' (congrArg (· = true) (congrArg Prod.snd (hmark j))).to_iff
  have hmarks : marks (m.setFlags r ((m.res r).rFlags &&& ~~~rfActive)) = marks m :=
    List.map_congr_left (fun j _ => hmark j)
  have hhead : ((m.setFlags r ((m.res r).rFlags &&& ~~~rfActive)).res r).rSharehead =
      (m.res r).rSharehead := by
    simp [Manager.setFlags, Manager.put]
  have hret : Returned (m.setFlags r ((m.res r).rFlags &&& ~~~rfActive)) m' r := by
    unfold releaseResource at hrel
    dsimp only at hrel
    rw [hhead] at hrel
    cases hsome : (m.res r).rSharehead with
    | some h =>
      rw [hsome] at hrel
      have hr : r ∈ m.heads h := by
        rcases hheld.2 with hr | ⟨h', hr⟩
        · exact hok.shared r hr h hsome
        rcases hok.toCore.group hr with ⟨lead, hg⟩
        have heq := (hg.head r hr).symm.trans hsome
        rwa [Option.some.inj heq] at hr
      exact releaseShared_returned ⟨hcore, hok.two⟩ hr hrel
    | none =>
      rw [hsome, Option.some.injEq] at hrel
      have hr : r ∈ m.rmList :=
        hheld.2.resolve_right (not_exists.mpr (hok.toCore.unshared_of_none hsome))
      rw [← hrel]
      exact releasePlain_returned hcore hr (hhead.trans hsome)
  refine ⟨fun j => ?_, fun j hj hne => ?_, fun htidy => hret.tidy (by rwa [hmarks])⟩
  · rw [hret.holds, hholds]
  · rw [hret.same j ((hholds j).mpr hj) hne]
    exact congrArg Prod.fst (hmark j)

end Holders

end FreeBSDKern.Rman
