import FreeBSDKern.VmMap.Clip

/-!
# Adding a Mapping

`vm_map_insert` looks the start of the range up, checks that the next entry
leaves room, and either widens the entry before the range or puts a new entry
between the two. Either way the range means what the call asked for and every
other address means what it did.

## Main definitions

* `Inserted`: What adding a mapping does.

## Theorems

* `linkNew_spec`: A new entry is put between two parts of the list.
* `insertNew_spec`, `insertExtend_spec`: The two ways of adding a mapping.
* `mapInsert_spec`: The whole call.
-/

namespace FreeBSDKern.VmMap

open Lib Function

/-- A mapping has been added: `mapped` says what the range means, and the rest is
    as it was. -/
structure Inserted (m m' : Map) (start stop : Nat) (prot max : Prot) (cow : Map.Cow) : Prop where
  wf : Wf m'
  minOffset : m'.minOffset = m.minOffset
  maxOffset : m'.maxOffset = m.maxOffset
  systemMap : m'.systemMap = m.systemMap
  kernelPmap : m'.kernelPmap = m.kernelPmap
  timestamp : m'.timestamp = m.timestamp
  wired : m'.wired = m.wired
  freshObj : m'.freshObj = m.freshObj
  outside : ∀ a, a < start ∨ stop ≤ a → m'.look a = m.look a
  mapped : ∀ a, start ≤ a → a < stop → ∃ v, m'.look a = some v ∧ v.eflags = cow.protoeflags ∧
    v.wiredCount = 0 ∧ v.protection = prot ∧ v.maxProtection = max

section insertNew

variable {m : Map} {pre post : List Nat} {e : Entry}

/-- There is room for an entry between two parts of the list. -/
structure Room (m : Map) (pre post : List Nat) (start stop : Nat) : Prop where
  list : m.list = pre ++ post
  nonempty : start < stop
  before : ∀ j ∈ pre, (m.entry j).stop ≤ start
  behind : ∀ j ∈ post, stop ≤ (m.entry j).start
  low : m.minOffset ≤ start
  high : stop ≤ m.maxOffset

theorem linkNew_spec (h : Wf m) (hr : Room m pre post e.start e.stop) :
    ∃ adj t, (m.entryCreate e).entryLink pre.getLast? m.fresh
        = (m.entryCreate e).withTree (pre ++ m.fresh :: post) adj t ∧
      Wf { (m.entryCreate e).withTree (pre ++ m.fresh :: post) adj t with
        size := m.size + (e.stop - e.start) } := by
  have hlist := hr.list
  have hnew : m.fresh ∉ pre ++ post := hlist ▸ fresh_notMem h
  have hother : ∀ j ∈ m.list, (m.entryCreate e).entry j = m.entry j := by
    intro j hj
    exact update_of_ne (h.tree.fresh j hj).ne _ _
  have hlaid : Laid (m.entryCreate e) (pre ++ m.fresh :: post) := by
    have hins := (hlist ▸ h.laid : Laid m (pre ++ post)).insert hnew hr.nonempty hr.before hr.behind
      hr.low hr.high
    exact hins.congr (fun _ _ => rfl) rfl rfl
  have htree : TreeOk (m.entryCreate e) := by
    refine ⟨h.tree.nodup, h.tree.inorder, h.tree.maxOk, h.tree.count, fun j hj => ?_⟩
    have := h.tree.fresh j hj
    show j < m.fresh + 1
    omega
  have hgaps : GapsBut (m.entryCreate e) pre.getLast? := by
    intro j hj _
    have hgap := h.gaps j hj
    rw [GapOk] at hgap ⊢
    rw [hother j hj]
    have hnext : (m.entryCreate e).nextStart j = m.nextStart j :=
      nextStart_congr (fun k hk => congrArg Entry.start (hother k hk)) rfl rfl j
    rw [hnext]
    exact hgap
  rcases entryLink_spec htree hlaid hlist (Nat.lt_succ_self m.fresh) hgaps with
    ⟨adj, t, heq, htree', hgaps'⟩
  refine ⟨adj, t, heq, ⟨htree'.nodup, htree'.inorder, htree'.maxOk, htree'.count, htree'.fresh⟩,
    hlaid.congr (fun _ _ => rfl) rfl rfl, fun j hj => (hgaps' j hj (by simp)).congr rfl rfl rfl rfl,
    ?_, h.limit⟩
  have hsize := h.size
  rw [hlist, mapped_append] at hsize
  have hm : ∀ l : List Nat, (∀ j ∈ l, j ∈ m.list) → mapped (m.entryCreate e) l = mapped m l :=
    fun l hl => mapped_congr fun j hj => hother j (hl j hj)
  show m.size + (e.stop - e.start) = mapped (m.entryCreate e) (pre ++ m.fresh :: post)
  rw [mapped_append, mapped_cons, hm pre (fun j hj => by simp [hlist, hj]),
    hm post (fun j hj => by simp [hlist, hj])]
  have hself : (m.entryCreate e).entry m.fresh = e := update_self ..
  rw [hself]
  omega

/-- What a map means once an entry has been put between two parts of its list. -/
theorem look_linkNew (hr : Room m pre post e.start e.stop) (h : Wf m) (adj : Nat → Nat)
    (t : SplayTree Nat) (a : Nat) :
    ((m.entryCreate e).withTree (pre ++ m.fresh :: post) adj t).look a
      = if e.contains a then some (e.view a) else m.look a := by
  have hmap : ∀ l : List Nat, (∀ j ∈ l, j ∈ m.list) →
      l.map (m.entryCreate e).entry = l.map m.entry :=
    fun l hl => List.map_congr_left fun j hj =>
      update_of_ne (h.tree.fresh j (hl j hj)).ne _ _
  have hself : (m.entryCreate e).entry m.fresh = e := update_self ..
  rw [look_split (withTree_list ..), withTree_entry, hself,
    hmap pre (fun j hj => by simp [hr.list, hj]), hmap post (fun j hj => by simp [hr.list, hj]),
    lookIn_append, lookIn_cons]
  split
  case isTrue hin =>
    -- Nothing in front of the entry reaches into it.
    have hin' := contains_iff.mp hin
    have hnone : lookIn (pre.map m.entry) a = none := by
      rw [lookIn, Option.map_eq_none_iff, List.find?_eq_none]
      intro f hf hc
      rcases List.mem_map.mp hf with ⟨j, hj, rfl⟩
      have := hr.before j hj
      have := contains_iff.mp hc
      omega
    rw [hnone, Option.none_or]
  case isFalse =>
    rw [Map.look, Map.entries, hr.list, List.map_append, lookIn_append]

/-- Making an entry, linking it and simplifying it. -/
theorem insertNew_spec (h : Wf m) (hr : Room m pre post e.start e.stop) :
    Wf (m.insertNew pre.getLast? e) ∧ (∀ a, (m.insertNew pre.getLast? e).look a
        = if e.contains a then some (e.view a) else m.look a) ∧
      ∃ l adj t b s e' f, m.insertNew pre.getLast? e
        = { (m.setEntry m.fresh e').withTree l adj t with size := s, obj := b, fresh := f } := by
  rcases linkNew_spec h hr with ⟨adj, t, heq, hwf⟩
  have hdef : m.insertNew pre.getLast? e = ({ (m.entryCreate e).withTree (pre ++ m.fresh :: post)
      adj t with size := m.size + (e.stop - e.start) } : Map).simplifyEntry m.fresh := by
    rw [Map.insertNew, heq]
    rfl
  rcases simplifyEntry_spec hwf
    (withTree_list (m.entryCreate e) (pre ++ m.fresh :: post) adj t) with
    ⟨pre', post', e', hsimp⟩
  rw [← hdef] at hsimp
  refine ⟨hsimp.wf, fun a => ?_, ?_⟩
  · rw [hsimp.look, ← look_linkNew hr h adj t]
    rfl
  rcases hsimp.reshaped with ⟨adj', t', b, hre⟩
  refine ⟨pre' ++ m.fresh :: post', adj', t', b, m.size + (e.stop - e.start), e', m.fresh + 1, ?_⟩
  rw [hre]
  simp only [Map.withTree, Map.setEntry, Map.entryCreate, update_idem]

end insertNew

section insertExtend

variable {m : Map} {pre post : List Nat} {p start stop : Nat}

/-- An entry is widened over free space behind it. -/
theorem widen_spec (h : Wf m) (hlist : m.list = pre ++ p :: post)
    (hroom : Room m (pre ++ [p]) post (m.entry p).stop stop) :
    let m₁ : Map := { m with size := m.size + (stop - (m.entry p).stop) }
    let m₂ := m₁.setEntry p { m.entry p with stop := stop }
    ∃ adj t, m₂.resizeFree p = m₂.withTree (pre ++ p :: post) adj t ∧
      Wf (m₂.withTree (pre ++ p :: post) adj t) := by
  intro m₁ m₂
  have hp : p ∈ m.list := by simp [hlist]
  have hnep := h.laid.nonempty p hp
  have hnodup : (pre ++ p :: post).Nodup := hlist ▸ h.tree.nodup
  have haround := h.laid.around hlist
  have hgap := hroom.nonempty
  have hlaid : Laid m₂ (pre ++ p :: post) := by
    have hins := (h.laid.erase hlist).insert (e := { m.entry p with stop := stop })
      (notMem_rest hnodup) (hnep.trans hgap) haround.1 hroom.behind (h.laid.low p hp) hroom.high
    exact hins.congr (fun _ _ => rfl) rfl rfl
  have htree : TreeOk m₂ :=
    ⟨h.tree.nodup, h.tree.inorder, h.tree.maxOk, h.tree.count, h.tree.fresh⟩
  have hgaps : GapsBut m₂ (some p) := by
    have hset := GapsBut.setStop (m := m) (i := p) (e := { m.entry p with stop := stop })
      (fun j hj _ => h.gaps j hj) rfl
    exact fun j hj hjp => (hset j hj hjp).congr rfl rfl rfl rfl
  have hsize : m₂.size = mapped m₂ (pre ++ p :: post) := by
    have hold := h.size
    rw [hlist, mapped_append, mapped_cons] at hold
    have hnew := mapped_setEntry (m := m) (e := { m.entry p with stop := stop })
      (notMem_rest hnodup)
    have hm : mapped m₂ (pre ++ p :: post)
        = mapped (m.setEntry p { m.entry p with stop := stop }) (pre ++ p :: post) :=
      mapped_congr fun _ _ => rfl
    rw [hm, hnew]
    show m.size + (stop - (m.entry p).stop) = _
    dsimp only
    omega
  have hlist₂ : m₂.list = pre ++ p :: post := hlist
  rw [← hlist₂] at hlaid hsize ⊢
  exact Wf.resizeFree htree hlaid hp hgaps hsize h.limit

/-- What a map means once an entry has been widened. -/
theorem look_widen (h : Wf m) (hlist : m.list = pre ++ p :: post) {m' : Map}
    (hlaid : Laid m' m'.list) (hlist' : m'.list = pre ++ p :: post)
    (hent : m'.entry = update m.entry p { m.entry p with stop := stop })
    (hle : (m.entry p).stop ≤ stop) (a : Nat) :
    m'.look a = if (m.entry p).stop ≤ a ∧ a < stop then some ((m.entry p).view a)
      else m.look a := by
  have hp : p ∈ m.list := by simp [hlist]
  have hnep := h.laid.nonempty p hp
  have hself : m'.entry p = { m.entry p with stop := stop } := by
    rw [hent, update_self]
  have hnot := notMem_rest (hlist ▸ h.tree.nodup : (pre ++ p :: post).Nodup)
  split
  case isTrue hin =>
    have hp' : p ∈ m'.list := by simp [hlist']
    have hlook := look_of_mem hlaid hp' (a := a) (by rw [hself]; dsimp only; omega)
    rw [hlook, hself]
    rfl
  case isFalse hout =>
  rw [look_split hlist', look_split hlist, hself, hent,
    map_update (fun hin => hnot (List.mem_append_left _ hin)),
    map_update (fun hin => hnot (List.mem_append_right _ hin)),
    lookIn_append, lookIn_append, lookIn_cons, lookIn_cons]
  congr 1
  have hc : ({ m.entry p with stop := stop } : Entry).contains a = (m.entry p).contains a := by
    rw [Bool.eq_iff_iff, contains_iff, contains_iff]
    dsimp only
    omega
  rw [hc]
  rfl

end insertExtend

theorem extendable_iff {m : Map} {e : Entry} {cow : Map.Cow} {start : Nat} {cred : Option Nat}
    (h : m.extendable e cow start cred = true) : e.eflags = cow.protoeflags ∧ e.stop = start ∧
      e.wiredCount = 0 := by
  simp only [Map.extendable, Bool.and_eq_true, beq_iff_eq] at h
  exact ⟨h.1.1.1.1.1, h.1.1.2, h.1.2⟩

theorem objectReference_eq (m : Map) (o : Option Nat) :
    ∃ b, m.objectReference o = { m with obj := b } := by
  cases o with
  | none => exact ⟨m.obj, rfl⟩
  | some o => exact ⟨_, rfl⟩

section insertFree

variable {m : Map} {pre post : List Nat} {start stop : Nat} {prot max : Prot} {cow : Map.Cow}

/-- A new entry that grants what the call asked for. -/
theorem inserted_new (h : Wf m) (hr : Room m pre post start stop) (b : Nat → Obj) {e : Entry}
    (hstart : e.start = start) (hstop : e.stop = stop) (hf : e.eflags = cow.protoeflags)
    (hw : e.wiredCount = 0) (hp : e.protection = prot) (hm : e.maxProtection = max) :
    Inserted m (({ m with obj := b } : Map).insertNew pre.getLast? e) start stop prot max cow := by
  have hr' : Room ({ m with obj := b } : Map) pre post e.start e.stop := by
    rw [hstart, hstop]
    exact ⟨hr.list, hr.nonempty, hr.before, hr.behind, hr.low, hr.high⟩
  rcases insertNew_spec (h.withObj b) hr' with ⟨hwf, hlook, l, adj, t, b', s, e', f, heq⟩
  have hlook' : ∀ a, (({ m with obj := b } : Map).insertNew pre.getLast? e).look a
      = if e.contains a then some (e.view a) else m.look a := hlook
  refine
    { wf := hwf, minOffset := by rw [heq]; rfl, maxOffset := by rw [heq]; rfl,
      systemMap := by rw [heq]; rfl, kernelPmap := by rw [heq]; rfl, timestamp := by rw [heq]; rfl,
      wired := by rw [heq]; rfl, freshObj := by rw [heq]; rfl, outside := fun a ha => ?_,
      mapped := fun a h₁ h₂ => ?_ }
  · rw [hlook', if_neg]
    intro hc
    have := contains_iff.mp hc
    omega
  · rw [hlook', if_pos (contains_iff.mpr (by omega))]
    exact ⟨_, rfl, hf, hw, hp, hm⟩

theorem drop_cred (c : Bool) (e : Entry) : (if c = true then { e with cred := none } else e)
      = { e with cred := if c = true then none else e.cred } := by
  cases c <;> rfl

/-- The entry before the range is extended in its object: it is widened, or a new
    entry shares the object. -/
theorem insertExtend_spec {p : Nat} {cred cred' : Option Nat} (h : Wf m)
    (hlist : m.list = pre ++ p :: post)
    (hr : Room m (pre ++ [p]) post start stop) (b : Nat → Obj)
    (hext : m.extendable (m.entry p) cow start cred' = true) :
    Inserted m (({ m with obj := b } : Map).insertExtend p start stop prot max cow cred)
      start stop prot max cow := by
  rcases extendable_iff hext with ⟨hf, hmeet, hw⟩
  rw [Map.insertExtend]
  split
  case isTrue hsame =>
    have hr' : Room m (pre ++ [p]) post (m.entry p).stop stop := by
      rw [hmeet]
      exact hr
    have hroom : Room ({ m with obj := b } : Map) (pre ++ [p]) post (m.entry p).stop stop :=
      ⟨hr'.list, hr'.nonempty, hr'.before, hr'.behind, hr'.low, hr'.high⟩
    rcases widen_spec (h.withObj b) hlist hroom with ⟨adj, t, heq, hwf⟩
    rcases simplifyEntry_spec hwf (withTree_list ..) with ⟨pre', post', e', hsimp⟩
    rw [← heq] at hsimp
    set m' := ((({ ({ m with obj := b } : Map) with
      size := m.size + (stop - (m.entry p).stop) } : Map).setEntry p
        { m.entry p with stop := stop }).resizeFree p).simplifyEntry p
    have hlook : ∀ a, m'.look a = if (m.entry p).stop ≤ a ∧ a < stop then
        some ((m.entry p).view a) else m.look a := by
      intro a
      rw [hsimp.look, heq]
      exact look_widen h hlist hwf.laid rfl rfl hr'.nonempty.le a
    rcases hsimp.reshaped with ⟨adj', t', b', hre⟩
    rw [heq] at hre
    refine
      { wf := hsimp.wf, minOffset := by rw [hre]; rfl, maxOffset := by rw [hre]; rfl,
        systemMap := by rw [hre]; rfl, kernelPmap := by rw [hre]; rfl,
        timestamp := by rw [hre]; rfl, wired := by rw [hre]; rfl, freshObj := by rw [hre]; rfl,
        outside := fun a ha => ?_, mapped := fun a h₁ h₂ => ?_ }
    · show m'.look a = m.look a
      rw [hlook, if_neg (by omega)]
    · refine ⟨_, (hlook a).trans (if_pos (by omega)), hf, hw, hsame.2.1, hsame.2.2⟩
  case isFalse =>
  rcases objectReference_eq ({ m with obj := b } : Map) (m.entry p).object with ⟨b', hb'⟩
  show Inserted m ((({ m with obj := b } : Map).objectReference (m.entry p).object).insertNew
    (some p) _) start stop prot max cow
  have hlast : (pre ++ [p]).getLast? = some p := List.getLast?_concat
  rw [hb', ← hlast, drop_cred]
  exact inserted_new h hr b' rfl rfl rfl rfl rfl rfl

theorem objectCoalesce_eq (m : Map) (env : Env) (o : Option Nat) (offset : BitVec 64)
    (prevSize nextSize : Nat) (reserved : Bool) :
    ∃ ok b, m.objectCoalesce env o offset prevSize nextSize reserved
      = (ok, { m with obj := b }) := by
  cases o with
  | none => exact ⟨true, m.obj, rfl⟩
  | some o => exact ⟨_, _, rfl⟩

theorem clearOneMapping_eq (m : Map) (o : Nat) : ∃ b, m.clearOneMapping o = { m with obj := b } := by
  rw [Map.clearOneMapping]
  split
  case isTrue => exact ⟨_, rfl⟩
  case isFalse => exact ⟨m.obj, rfl⟩

/-- Once the range is known to be free, the mapping is added. -/
theorem insertFree_spec (prot max : Prot) (cow : Map.Cow) (h : Wf m) (env : Env)
    (hr : Room m pre post start stop)
    (object : Option Nat) (offset : BitVec 64) (cred : Option Nat) :
    Inserted m (m.insertFree env pre.getLast? object offset start stop prot max cow cred)
      start stop prot max cow := by
  have hplain : ∀ (b : Nat → Obj) (o : Option Nat), Inserted m
      (({ m with obj := b } : Map).insertNew pre.getLast?
        (Map.newEntry o offset start stop prot max cow cred)) start stop prot max cow :=
    fun b o => inserted_new h hr b rfl rfl rfl rfl rfl rfl
  rw [Map.insertFree.eq_def]
  cases object with
  | some o =>
    dsimp only
    rcases clearOneMapping_eq m o with ⟨b, hb⟩
    rw [hb]
    exact hplain b (some o)
  | none =>
    rcases List.eq_nil_or_concat pre with rfl | ⟨front, p, rfl⟩
    · exact hplain m.obj none
    rw [List.concat_eq_append] at hr hplain ⊢
    have hlist : m.list = front ++ p :: post := by simpa using hr.list
    rw [List.getLast?_concat] at hplain ⊢
    dsimp only
    split
    case isFalse => exact hplain m.obj none
    case isTrue hext =>
    rcases objectCoalesce_eq m env (m.entry p).object (m.entry p).offset
      ((m.entry p).stop - (m.entry p).start) (stop - (m.entry p).stop)
      (cred.isSome && !cow.copyOnWrite) with ⟨ok, b, hok⟩
    rw [hok]
    dsimp only
    split
    case isTrue => exact insertExtend_spec h hlist hr b hext
    case isFalse => exact hplain b none

end insertFree

/-- `vm_map_insert` either adds the mapping or returns an error and changes
    nothing but the shape of the tree. -/
theorem mapInsert_spec {m : Map} (h : Wf m) (env : Env) (object : Option Nat) (offset : BitVec 64)
    (start stop : Nat) (prot max : Prot) (cow : Map.Cow) :
    let r := m.mapInsert env object offset start stop prot max cow
    (r.1 = .success ∧ Inserted m r.2 start stop prot max cow ∧ m.minOffset ≤ start ∧
      stop ≤ m.maxOffset ∧ start < stop ∧ ∀ a, start ≤ a → a < stop → m.look a = none) ∨
      (r.1 ≠ .success ∧ ∃ t, r.2 = { m with root := t } ∧ Wf r.2) := by
  intro r
  simp only [r]
  rw [Map.mapInsert.eq_def]
  split
  case isTrue => exact .inr ⟨by simp, m.root, rfl, h⟩
  case isFalse hrange =>
  rcases lookup_spec h true start with ⟨t, b, e, heq, hwf, hans⟩
  rw [heq]
  cases hans with
  | hit pre i post hlist hstart hstop => exact .inr ⟨by simp, t, rfl, hwf⟩
  | miss pre post hlist hpre hpost =>
    dsimp only
    set m₀ : Map := { m with root := t }
    have hnext : m₀.nextOf pre.getLast? = post.head? := nextOf_split h.tree.nodup hlist
    split
    case isFalse => exact .inr ⟨by simp, t, rfl, hwf⟩
    case isTrue hroom =>
    rw [hnext] at hroom
    have hbehind : ∀ j ∈ post, stop ≤ (m₀.entry j).start := by
      cases post with
      | nil => simp
      | cons n post =>
        have hn : stop ≤ (m₀.entry n).start := by simpa [Map.roomBefore] using hroom
        exact hwf.laid.behind_of_split (hlist : m₀.list = pre ++ n :: post) hn
    have hr : Room m₀ pre post start stop := by
      rw [not_or, not_or] at hrange
      exact ⟨hlist, by omega, hpre, hbehind, by show m.minOffset ≤ start; omega,
        by show stop ≤ m.maxOffset; omega⟩
    cases hcred : Map.insertCred env object (stop - start) prot cow with
    | none => exact .inr ⟨by simp, t, rfl, hwf⟩
    | some cred =>
      have hins := insertFree_spec prot max cow hwf env hr object
        offset cred
      refine .inl ⟨rfl, ?_, hr.low, hr.high, hr.nonempty, fun a h₁ h₂ => ?_⟩
      · exact ⟨hins.wf, hins.minOffset, hins.maxOffset, hins.systemMap, hins.kernelPmap,
          hins.timestamp, hins.wired, hins.freshObj, hins.outside, hins.mapped⟩
      exact look_between (m := m) hlist hpre hbehind h₁ h₂

end FreeBSDKern.VmMap
