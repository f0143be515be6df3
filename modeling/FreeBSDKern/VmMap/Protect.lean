import FreeBSDKern.VmMap.Delete

/-!
# Changing Protections

`vm_map_protect` goes over a range three times: to check, to cut the last entry
and charge for private memory that becomes writable, and to change the
protections. Each changed entry is merged with its neighbours at once, while the
last walk is still going on.

A failure leaves every address with the protections it had, since the first two
walks change none. In the last walk an entry may take in the one behind it before
the walk has come to that; what is taken in has the new protections already, so
it does not matter that the walk passes over it (`protectLoop_spec`).

## Main definitions

* `Map.protect`: `vm_map_protect`.
* `reprotect`: What it does to one address.
* `Map.checkProtection`: `vm_map_check_protection`.

## Theorems

* `chargeLoop_spec`, `protectLoop_spec`: The walks.
* `vm_map_protect_all_or_nothing`: The protections after a call.
* `checkProtection_iff`: What a check says.
-/

namespace FreeBSDKern.VmMap

open Lib Function

namespace Map

/-- Whether someone is charged for the memory of an entry (`ENTRY_CHARGED`). -/
def entryCharged (m : Map) (e : Entry) : Bool :=
  e.cred.isSome || match e.object with
    | none => false
    | some o => (m.obj o).cred.isSome && !e.eflags.needsCopy

/-- `VM_MAP_RANGE_CHECK`: the part of a range that lies in the map. -/
def rangeCheck (m : Map) (start stop : Nat) : Nat × Nat :=
  let start := if start < m.minOffset then m.minOffset else start
  let stop := if m.maxOffset < stop then m.maxOffset else stop
  (if stop < start then stop else start, stop)

/-- The first walk of `vm_map_protect`, which checks. It changes nothing, so it
    goes over the entries as they are linked. -/
def protectCheck (m : Map) (stop : Nat) (newProt : Prot) : List Nat → Kern
  | [] => .success
  | current :: l =>
    let e := m.entry current
    if e.start < stop then
      if e.eflags.isSubMap then .invalidArgument
      else if newProt &&& e.maxProtection ≠ newProt then .protectionFailure
      else protectCheck m stop newProt l
    else .success

/-- What the second walk charges for an entry that becomes writable. `reserve`
    answers for each entry whether swap space can be reserved; `none` when not. -/
def chargeEntry (m : Map) (cred : Nat) (reserve : Nat → Nat → Bool) (newProt : Prot)
    (setMax : Bool) (current : Nat) : Option Map :=
  let e := m.entry current
  if setMax || !(newProt &&& ~~~e.protection).grants protWrite || m.entryCharged e then some m
  else
    match e.object, e.eflags.needsCopy with
    | some o, false =>
      let b := m.obj o
      if b.type ≠ .default ∧ b.type ≠ .swap then some m
      else if reserve current (b.size * pageSize % 2 ^ 64) then
        some (m.setObj o { b with cred := some cred, charge := b.size * pageSize % 2 ^ 64 })
      else none
    | _, _ =>
      if reserve current (e.stop - e.start) then
        some (m.setEntry current { e with cred := some cred })
      else none

/-- The second walk of `vm_map_protect`, which says whether everything could be
    charged. `none` when `fuel` runs out. -/
def chargeLoop (cred : Nat) (reserve : Nat → Nat → Bool) (stop : Nat) (newProt : Prot)
    (setMax : Bool) : Nat → Map → Option Nat → Option (Bool × Map)
  | _, m, none => some (true, m)
  | 0, _, some _ => none
  | fuel + 1, m, some current =>
    if (m.entry current).start < stop then
      let m := m.clipEnd current stop
      match m.chargeEntry cred reserve newProt setMax current with
      | none => some (false, m)
      | some m => chargeLoop cred reserve stop newProt setMax fuel m (next? m.list current)
    else some (true, m)

/-- The object the private copy of an entry's pages goes into: a new one, or the
    entry's own when that is private already. -/
def copyTarget (m : Map) (e : Entry) (src : Nat) : Map × Entry × Nat :=
  if e.eflags.needsCopy then
    (m.objectAllocate { size := (e.stop - e.start) / pageSize, charge := e.stop - e.start },
      { e with object := some m.freshObj, offset := 0 }, m.freshObj)
  else (m.objectReference (some src), e, src)

/-- The charge of an entry moves to its object when that has none. -/
def copyCharge (m : Map) (e : Entry) (dst : Nat) : Map × Entry :=
  if (m.obj dst).cred.isNone then
    (m.setObj dst { m.obj dst with cred := e.cred }, { e with cred := none })
  else (m, e)

/-- `vm_fault_copy_entry` of an entry onto itself: the entry gets a private copy of
    its pages if it still needs one. `none` for an entry without an object, which
    has no pages to copy. -/
def faultCopyEntry (m : Map) (i : Nat) : Option Map :=
  match (m.entry i).object with
  | none => none
  | some src =>
    let (m, e, dst) := m.copyTarget (m.entry i) src
    let (m, e) := m.copyCharge e dst
    let e := { e with eflags := { e.eflags with cow := false, needsCopy := false } }
    some ((m.setEntry i e).objectDeallocate (some src))

/-- An entry with its new protections. -/
def newProtection (newProt : Prot) (setMax : Bool) (old : Entry) : Entry :=
  if setMax then
    { old with maxProtection := newProt, protection := newProt &&& old.protection }
  else { old with protection := newProt }

/-- What the third walk does to an entry. -/
def protectEntry (m : Map) (newProt : Prot) (setMax : Bool) (current : Nat) : Option Map :=
  let old := m.entry current
  let e := newProtection newProt setMax old
  let m := m.setEntry current e
  let copied := if e.eflags.userWired && e.protection.grants protWrite
      && !old.protection.grants protWrite then
      m.faultCopyEntry current
    else some m
  copied.map fun m => m.simplifyEntry current

/-- The third walk of `vm_map_protect`. `none` when `fuel` runs out or an entry has
    no pages to copy. -/
def protectLoop (stop : Nat) (newProt : Prot) (setMax : Bool) : Nat → Map → Option Nat → Option Map
  | _, m, none => some m
  | 0, _, some _ => none
  | fuel + 1, m, some current =>
    if (m.entry current).start < stop then
      match m.protectEntry newProt setMax current with
      | none => none
      | some m => protectLoop stop newProt setMax fuel m (next? m.list current)
    else some m

/-- The three walks of `vm_map_protect`, each from the same entry. -/
def protectFrom (m : Map) (cred : Nat) (reserve : Nat → Nat → Bool) (stop : Nat)
    (newProt : Prot) (setMax : Bool) (entry : Option Nat) : Option (Kern × Map) :=
  let rest := match entry with
    | none => []
    | some i => m.list.dropWhile (· ≠ i)
  match m.protectCheck stop newProt rest with
  | .success =>
    match chargeLoop cred reserve stop newProt setMax (m.list.length + 1) m entry with
    | none => none
    | some (false, m) => some (.resourceShortage, m)
    | some (true, m) =>
      (protectLoop stop newProt setMax (m.list.length + 1) m entry).map fun m => (.success, m)
  | r => some (r, m)

/-- `vm_map_protect`. The range begins as the one of a deletion does. -/
def protect (m : Map) (cred : Nat) (reserve : Nat → Nat → Bool) (start stop : Nat)
    (newProt : Prot) (setMax : Bool) : Option (Kern × Map) :=
  if start = stop then some (.success, m)
  else
    let m := m.lock
    let (start, stop) := m.rangeCheck start stop
    let (m, entry) := m.deleteFirst start
    m.protectFrom cred reserve stop newProt setMax entry

end Map

/-- The protections at an address. -/
def View.access (v : View) : Prot × Prot := (v.protection, v.maxProtection)

/-- What `vm_map_protect` makes of the protections at an address. -/
def reprotect (newProt : Prot) (setMax : Bool) (p : Prot × Prot) : Prot × Prot :=
  if setMax then (newProt &&& p.1, newProt) else (newProt, p.2)

theorem reprotect_reprotect (newProt : Prot) (setMax : Bool) (p : Prot × Prot) :
    reprotect newProt setMax (reprotect newProt setMax p) = reprotect newProt setMax p := by
  cases setMax with
  | false => rfl
  | true => simp [reprotect, ← BitVec.and_assoc]

/-- The protections of a map at an address. -/
def Map.access (m : Map) (a : Nat) : Option (Prot × Prot) := (m.look a).map View.access

theorem SameAt.access {f f' : Nat} {base : Nat → Nat} {a : Nat} {v v' : Option View}
    (h : SameAt f f' base a v v') : v'.map View.access = v.map View.access := by
  cases h with
  | kept v => rfl
  | created v o hv hlo hhi hbase => rfl

/-! ## The first two walks -/

section charge

variable {m m' : Map} {cred : Nat} {reserve : Nat → Nat → Bool} {newProt : Prot} {setMax : Bool}
  {i : Nat}

/-- Charging for an entry changes whom it or its object is charged to. -/
theorem chargeEntry_eq (h : m.chargeEntry cred reserve newProt setMax i = some m') :
    ∃ c b, m' = { m.setEntry i { m.entry i with cred := c } with obj := b } := by
  have hself : m.setEntry i { m.entry i with cred := (m.entry i).cred } = m := by
    show { m with entry := update m.entry i (m.entry i) } = m
    rw [update_eq_self]
  have hobj : ∀ o b, ∃ c b',
      m.setObj o b = { m.setEntry i { m.entry i with cred := c } with obj := b' } := by
    intro o b
    refine ⟨(m.entry i).cred, (m.setObj o b).obj, ?_⟩
    rw [hself, Map.setObj]
  rw [Map.chargeEntry] at h
  split at h
  case isTrue =>
    cases h
    exact ⟨_, m.obj, hself.symm⟩
  case isFalse =>
  split at h
  case h_1 o ho hn =>
    dsimp only at h
    split at h
    case isTrue =>
      cases h
      exact ⟨_, m.obj, hself.symm⟩
    case isFalse =>
    split at h
    case isTrue =>
      cases h
      exact hobj o _
    case isFalse => cases h
  case h_2 =>
  split at h
  case isTrue =>
    cases h
    exact ⟨_, m.obj, rfl⟩
  case isFalse => cases h

/-- The entries and the meaning of a map in which an entry was charged for. -/
theorem chargeEntry_spec (hw : Wf m) (hi : i ∈ m.list)
    (h : m.chargeEntry cred reserve newProt setMax i = some m') :
    Wf m' ∧ m'.list = m.list ∧ m'.freshObj = m.freshObj ∧ m'.minOffset = m.minOffset ∧
      m'.maxOffset = m.maxOffset ∧ (∀ j, (m'.entry j).start = (m.entry j).start ∧
        (m'.entry j).stop = (m.entry j).stop) ∧ ∀ a, m'.look a = m.look a := by
  rcases chargeEntry_eq h with ⟨c, b, rfl⟩
  have hwf : Wf (m.setEntry i { m.entry i with cred := c }) := hw.same (.setEntry m rfl rfl)
  refine ⟨hwf.withObj b, rfl, rfl, rfl, rfl, fun j => ?_, fun a => ?_⟩
  · show (update m.entry i _ j).start = _ ∧ (update m.entry i _ j).stop = _
    by_cases hji : j = i
    · rw [hji, update_self]
      exact ⟨rfl, rfl⟩
    · rw [update_of_ne hji]
      exact ⟨rfl, rfl⟩
  have hlook := look_setEntry hw hi (e := { m.entry i with cred := c }) rfl rfl a
  refine hlook.trans ?_
  split
  case isTrue hin => rw [look_of_mem hw.laid hi (contains_iff.mp hin), Entry.view, Entry.view]
  case isFalse => rfl

end charge

/-- What a walk that cuts and charges leaves: nothing means anything else. -/
structure Walked (m m' : Map) (lo : Nat) (pre rest : List Nat) (base : Nat → Nat) : Prop where
  wf : Wf m'
  list : m'.list = pre ++ rest
  kept : ∀ j ∈ pre, (m'.entry j).start = (m.entry j).start ∧ (m'.entry j).stop = (m.entry j).stop
  behind : ∀ j ∈ rest, lo ≤ (m'.entry j).start
  minOffset : m'.minOffset = m.minOffset
  maxOffset : m'.maxOffset = m.maxOffset
  freshObj : m.freshObj ≤ m'.freshObj
  look : ∀ a, SameAt m.freshObj m'.freshObj base a (m.look a) (m'.look a)

/-- No entry of a list that begins before an address reaches beyond it. -/
def CutAt (m : Map) (hi : Nat) (l : List Nat) : Prop :=
  ∀ j ∈ l, (m.entry j).start < hi → (m.entry j).stop ≤ hi

section walk

variable {m : Map} {lo hi : Nat} {pre rest : List Nat} {i : Nat}

/-- Behind an entry that begins at an address or beyond it there is nothing to cut. -/
theorem cutAt_of_le (h : Wf m) (hlist : m.list = pre ++ i :: rest) (hge : hi ≤ (m.entry i).start) :
    CutAt m hi (i :: rest) := by
  intro j hj hlt
  have := h.laid.behind_of_split hlist hge j hj
  omega

/-- One turn of the second walk: the entry is cut, and is cut off from what is
    behind it. -/
theorem clipEnd_walk (h : Wf m) (hlist : m.list = pre ++ i :: rest)
    (hlt : (m.entry i).start < hi) (hbehind : ∀ j ∈ i :: rest, lo ≤ (m.entry j).start) :
    ∃ rest', Walked m (m.clipEnd i hi) lo pre (i :: rest') (fun _ => (m.entry i).start) ∧
      ((m.clipEnd i hi).entry i).stop ≤ hi ∧
      (rest' = rest ∨ rest' = m.fresh :: rest ∧ ((m.clipEnd i hi).entry m.fresh).start = hi) := by
  rcases clipEnd_spec h hlist hlt with ⟨hsame, hle⟩ | ⟨hclip, hlist', hstart, hstop, hnew, -⟩
  · rw [hsame]
    exact ⟨rest, ⟨h, hlist, fun _ _ => ⟨rfl, rfl⟩, hbehind, rfl, rfl, le_refl _,
      fun a => .kept _⟩, hle, .inl rfl⟩
  have hnodup : (pre ++ i :: rest).Nodup := hlist ▸ h.tree.nodup
  have hfresh : ∀ j ∈ m.list, j ≠ m.fresh := fun j hj => (h.tree.fresh j hj).ne
  have hself : lo ≤ ((m.clipEnd i hi).entry i).start := by
    rw [hstart]
    exact hbehind i List.mem_cons_self
  refine ⟨m.fresh :: rest, ⟨hclip.wf, hlist', fun j hj => ?_,
    hclip.wf.laid.behind_of_split hlist' hself, hclip.minOffset, hclip.maxOffset,
    hclip.freshObj, hclip.look⟩, hstop.le, .inr ⟨rfl, hnew⟩⟩
  have hji : j ≠ i := by
    rintro rfl
    exact notMem_rest hnodup (List.mem_append_left _ hj)
  rw [hclip.other j hji (hfresh j (by simp [hlist, hj]))]
  exact ⟨rfl, rfl⟩

/-- The second walk cuts the range off and charges for it, or stops when it cannot
    charge for an entry. -/
theorem chargeLoop_spec (cred : Nat) (reserve : Nat → Nat → Bool) (newProt : Prot)
    (setMax : Bool) (lo hi : Nat) :
    ∀ {fuel : Nat} {m : Map} {pre rest : List Nat}, Wf m → m.list = pre ++ rest →
      rest.length < fuel → (∀ j ∈ rest, lo ≤ (m.entry j).start) → ∃ ok m' rest' base,
        Map.chargeLoop cred reserve hi newProt setMax fuel m rest.head? = some (ok, m') ∧
          rest'.head? = rest.head? ∧ Walked m m' lo pre rest' base ∧
          (ok = true → CutAt m' hi rest') := by
  intro fuel
  induction fuel with
  | zero => intro m pre rest _ _ hfuel; omega
  | succ fuel ih =>
    intro m pre rest h hlist hfuel hbehind
    cases rest with
    | nil =>
      exact ⟨true, m, [], fun _ => 0, rfl, rfl, ⟨h, hlist, fun _ _ => ⟨rfl, rfl⟩, hbehind, rfl,
        rfl, le_refl _, fun a => .kept _⟩, nofun⟩
    | cons i rest =>
      rw [List.head?_cons, Map.chargeLoop]
      split
      case isFalse hge =>
        exact ⟨true, m, i :: rest, fun _ => 0, rfl, rfl, ⟨h, hlist, fun _ _ => ⟨rfl, rfl⟩,
          hbehind, rfl, rfl, le_refl _, fun a => .kept _⟩,
          fun _ => cutAt_of_le h hlist (not_lt.mp hge)⟩
      case isTrue hlt =>
      rcases clipEnd_walk h hlist hlt hbehind with ⟨rest₁, hw₁, hcut, hrest₁⟩
      dsimp only
      split
      case h_1 => exact ⟨false, _, i :: rest₁, _, rfl, rfl, hw₁, by simp⟩
      case h_2 m₂ hcharge =>
      have hi₁ : i ∈ (m.clipEnd i hi).list := by simp [hw₁.list]
      rcases chargeEntry_spec hw₁.wf hi₁ hcharge with
        ⟨hwf₂, hlist₂, hfresh₂, hmin₂, hmax₂, hplace₂, hlook₂⟩
      have hl₂ : m₂.list = pre ++ i :: rest₁ := hlist₂.trans hw₁.list
      have hl₂' : m₂.list = (pre ++ [i]) ++ rest₁ := by simpa using hl₂
      have hw₂ : Walked m m₂ lo pre (i :: rest₁) (fun _ => (m.entry i).start) := by
        refine ⟨hwf₂, hl₂, fun j hj => ?_, fun j hj => ?_, hmin₂.trans hw₁.minOffset,
          hmax₂.trans hw₁.maxOffset, ?_, fun a => ?_⟩
        · rw [(hplace₂ j).1, (hplace₂ j).2]
          exact hw₁.kept j hj
        · rw [(hplace₂ j).1]
          exact hw₁.behind j hj
        · rw [hfresh₂]
          exact hw₁.freshObj
        · rw [hfresh₂, hlook₂]
          exact hw₁.look a
      have hcut₂ : (m₂.entry i).stop ≤ hi := (hplace₂ i).2 ▸ hcut
      rw [next?_of_split hwf₂.tree.nodup hl₂]
      rcases hrest₁ with rfl | ⟨rfl, hnew⟩
      · -- The entry lies in the range, which may go on behind it.
        rcases ih hwf₂ hl₂' (by simp at hfuel; omega)
          (fun j hj => hw₂.behind j (List.mem_cons_of_mem i hj)) with
          ⟨ok, m', rest', base, heq, hhead, hw', hok⟩
        have hi' := hw'.kept i (by simp)
        refine ⟨ok, m', i :: rest', _, heq, rfl, ⟨hw'.wf, by simpa using hw'.list,
          fun j hj => ?_, fun j hj => ?_, hw'.minOffset.trans hw₂.minOffset,
          hw'.maxOffset.trans hw₂.maxOffset, hw₂.freshObj.trans hw'.freshObj,
          fun a => (hw₂.look a).trans (hw'.look a) hw₂.freshObj hw'.freshObj⟩, fun hok' j hj => ?_⟩
        · have hj' := hw'.kept j (by simp [hj])
          rw [hj'.1, hj'.2]
          exact hw₂.kept j hj
        · rcases List.mem_cons.mp hj with hj | hj
          · rw [hj, hi'.1]
            exact hw₂.behind i List.mem_cons_self
          · exact hw'.behind j hj
        rcases List.mem_cons.mp hj with hj | hj
        · rw [hj, hi'.2]
          exact fun _ => hcut₂
        · exact hok hok' j hj
      -- The entry was cut, and the other half is where the range ends.
      have hge : hi ≤ (m₂.entry m.fresh).start := ((hplace₂ m.fresh).1.trans hnew).ge
      refine ⟨true, m₂, i :: m.fresh :: rest, _, ?_, rfl, hw₂, fun _ j hj => ?_⟩
      · cases fuel with
        | zero => simp at hfuel
        | succ fuel =>
          rw [List.head?_cons, Map.chargeLoop, if_neg (by omega)]
      rcases List.mem_cons.mp hj with hj | hj
      · rw [hj]
        exact fun _ => hcut₂
      · exact cutAt_of_le hwf₂ hl₂' hge j hj

end walk

/-! ## The third walk -/

/-- An entry in its place, with some protections. -/
structure Regarded (e e' : Entry) (p : Prot × Prot) : Prop where
  start : e'.start = e.start
  stop : e'.stop = e.stop
  access : (e'.protection, e'.maxProtection) = p

/-- The objects may be others. -/
def SameBut (m m' : Map) : Prop :=
  ∃ b f, m' = { m with obj := b, freshObj := f } ∧ m.freshObj ≤ f

variable {m m' : Map} {i : Nat}

theorem SameBut.trans {m'' : Map} (h : SameBut m m') (h' : SameBut m' m'') : SameBut m m'' := by
  rcases h with ⟨b, f, rfl, hf⟩
  rcases h' with ⟨b', f', rfl, hf'⟩
  exact ⟨b', f', rfl, hf.trans hf'⟩

theorem SameBut.wf (h : SameBut m m') (hw : Wf m) : Wf m' := by
  rcases h with ⟨b, f, rfl, -⟩
  exact hw.same ⟨rfl, rfl, rfl, rfl, rfl, rfl, rfl, rfl, fun _ _ => rfl, fun _ _ => rfl⟩

theorem copyTarget_spec (m : Map) (e : Entry) (src : Nat) : SameBut m (m.copyTarget e src).1 ∧
      Regarded e (m.copyTarget e src).2.1 (e.protection, e.maxProtection) := by
  rw [Map.copyTarget]
  split
  case isTrue => exact ⟨⟨_, m.freshObj + 1, rfl, Nat.le_succ _⟩, rfl, rfl, rfl⟩
  case isFalse => exact ⟨⟨_, m.freshObj, rfl, le_refl _⟩, rfl, rfl, rfl⟩

theorem copyCharge_spec (m : Map) (e : Entry) (dst : Nat) : SameBut m (m.copyCharge e dst).1 ∧
      Regarded e (m.copyCharge e dst).2 (e.protection, e.maxProtection) := by
  rw [Map.copyCharge]
  split
  case isTrue => exact ⟨⟨_, m.freshObj, rfl, le_refl _⟩, rfl, rfl, rfl⟩
  case isFalse => exact ⟨⟨_, m.freshObj, rfl, le_refl _⟩, rfl, rfl, rfl⟩

/-- Copying the pages of an entry leaves it in its place with its protections. -/
theorem faultCopyEntry_spec (h : m.faultCopyEntry i = some m') : ∃ e, SameBut (m.setEntry i e) m' ∧
      Regarded (m.entry i) e ((m.entry i).protection, (m.entry i).maxProtection) := by
  rw [Map.faultCopyEntry] at h
  split at h
  case h_1 => cases h
  case h_2 src ho =>
  have htarget := copyTarget_spec m (m.entry i) src
  rcases heq₁ : m.copyTarget (m.entry i) src with ⟨m₁, e₁, dst⟩
  have hcharge := copyCharge_spec m₁ e₁ dst
  rcases heq₂ : m₁.copyCharge e₁ dst with ⟨m₂, e₂⟩
  rw [heq₁] at h htarget
  dsimp only at h htarget
  rw [heq₂] at h hcharge
  dsimp only at h hcharge
  set e₃ : Entry := { e₂ with eflags := { e₂.eflags with cow := false, needsCopy := false } }
  cases h
  have hreg := htarget.2
  have hreg' := hcharge.2
  have haccess := hreg'.access.trans hreg.access
  refine ⟨e₃, ?_, hreg'.start.trans hreg.start, hreg'.stop.trans hreg.stop, haccess⟩
  rcases htarget.1.trans hcharge.1 with ⟨b, f, rfl, hf⟩
  rcases objectDeallocate_eq (({ m with obj := b, freshObj := f } : Map).setEntry i e₃)
    (some src) with ⟨b', hb'⟩
  exact ⟨b', f, hb', hf⟩

theorem faultCopyEntry_isSome (h : (m.entry i).object.isSome) : (m.faultCopyEntry i).isSome := by
  rcases Option.isSome_iff_exists.mp h with ⟨src, hsrc⟩
  rw [Map.faultCopyEntry, hsrc]
  rfl

/-- What one turn of the third walk leaves: the entry at hand has new protections,
    and may have taken in the one before it and the one behind it. -/
structure Reprotected (m m' : Map) (newProt : Prot) (setMax : Bool) (i : Nat)
    (pre rest pre' rest' : List Nat) : Prop where
  wf : Wf m'
  list : m'.list = pre' ++ i :: rest'
  back : rest' = rest ∨ ∃ n, rest = n :: rest'
  behind : ∀ j ∈ rest', m'.entry j = m.entry j
  start_le : (m'.entry i).start ≤ (m.entry i).start
  le_stop : (m.entry i).stop ≤ (m'.entry i).stop
  minOffset : m'.minOffset = m.minOffset
  maxOffset : m'.maxOffset = m.maxOffset
  freshObj : m.freshObj ≤ m'.freshObj
  inside : ∀ a, (m.entry i).start ≤ a → a < (m.entry i).stop →
    m'.access a = (m.access a).map (reprotect newProt setMax)
  outside : ∀ a, a < (m.entry i).start ∨ (m.entry i).stop ≤ a → m'.look a = m.look a
  whole : ∀ a, (m'.entry i).start ≤ a → a < (m'.entry i).stop →
    (m'.access a).map (reprotect newProt setMax) = m'.access a

section protect

variable {m m' : Map} {newProt : Prot} {setMax : Bool} {i : Nat} {pre rest : List Nat}

theorem newProtection_regarded (newProt : Prot) (setMax : Bool) (e : Entry) :
    Regarded e (Map.newProtection newProt setMax e)
      (reprotect newProt setMax (e.protection, e.maxProtection)) := by
  cases setMax with
  | false | true => exact ⟨rfl, rfl, rfl⟩

theorem newProtection_same (newProt : Prot) (setMax : Bool) (e : Entry) :
    (Map.newProtection newProt setMax e).eflags = e.eflags ∧
      (Map.newProtection newProt setMax e).object = e.object := by
  cases setMax with
  | false | true => exact ⟨rfl, rfl⟩

/-- The third walk writes an entry anew with its new protections and simplifies it. -/
theorem protectEntry_eq (h : m.protectEntry newProt setMax i = some m') :
    ∃ e m₁, SameBut (m.setEntry i e) m₁ ∧ m' = m₁.simplifyEntry i ∧ Regarded (m.entry i) e
      (reprotect newProt setMax ((m.entry i).protection, (m.entry i).maxProtection)) := by
  rw [Map.protectEntry] at h
  rcases Option.map_eq_some_iff.mp h with ⟨m₁, hcopied, rfl⟩
  have hreg := newProtection_regarded newProt setMax (m.entry i)
  split at hcopied
  case isTrue =>
    rcases faultCopyEntry_spec hcopied with ⟨e, hsame, hcopy⟩
    rw [setEntry_entry_self] at hcopy
    refine ⟨e, m₁, ?_, rfl, hcopy.start.trans hreg.start, hcopy.stop.trans hreg.stop,
      hcopy.access.trans hreg.access⟩
    rwa [Map.setEntry, Map.setEntry, update_idem] at hsame
  case isFalse =>
    cases hcopied
    exact ⟨_, _, ⟨_, _, rfl, le_refl _⟩, rfl, hreg⟩

theorem protectEntry_spec (hw : Wf m) (hlist : m.list = pre ++ i :: rest)
    (h : m.protectEntry newProt setMax i = some m') :
    ∃ pre' rest', Reprotected m m' newProt setMax i pre rest pre' rest' := by
  rcases protectEntry_eq h with ⟨e, m₁, hsame, rfl, hreg⟩
  have hwf₁ : Wf m₁ := hsame.wf (hw.same (.setEntry m hreg.start hreg.stop))
  have hi : i ∈ m.list := by simp [hlist]
  rcases hsame with ⟨b, f, hm₁, hf⟩
  have hlook₁ : ∀ a, m₁.look a = if e.contains a then some (e.view a) else m.look a := by
    intro a
    rw [← look_setEntry hw hi hreg.start hreg.stop a, hm₁]
    rfl
  have hself : m₁.entry i = e := by
    rw [hm₁]
    exact setEntry_entry_self m i e
  have hlist₁ : m₁.list = pre ++ i :: rest := by
    rw [hm₁]
    exact hlist
  rcases simplifyEntry_spec hwf₁ hlist₁ with ⟨pre', rest', e', hsimp⟩
  have hself' : (m₁.simplifyEntry i).entry i = e' := by
    rw [hsimp.reshaped.entry_eq, update_self]
  have hi' : i ∈ (m₁.simplifyEntry i).list := by simp [hsimp.reshaped.list_eq]
  have hstart := hsimp.start_le
  have hstop := hsimp.le_stop
  rw [hself] at hstart hstop
  refine ⟨pre', rest', hsimp.wf, hsimp.reshaped.list_eq, ?_, fun j hj => ?_, ?_, ?_, ?_, ?_, ?_,
    fun a h₁ h₂ => ?_, fun a ha => ?_, fun a h₁ h₂ => ?_⟩
  · rcases hsimp.back with hback | ⟨n, hback, -⟩
    · exact .inl hback
    · exact .inr ⟨n, hback⟩
  · -- What is behind the entry was behind it before.
    have hji : j ≠ i := by
      rintro rfl
      have hnodup := hsimp.wf.tree.nodup
      rw [hsimp.reshaped.list_eq] at hnodup
      exact notMem_rest hnodup (List.mem_append_right _ hj)
    rw [hsimp.reshaped.entry_eq, update_of_ne hji, hm₁]
    exact setEntry_entry_of_ne m e hji
  · rw [hself', ← hreg.start]
    exact hstart
  · rw [hself', ← hreg.stop]
    exact hstop
  · rcases hsimp.reshaped with ⟨adj, t, b', hre⟩
    rw [hre, hm₁]
    rfl
  · rcases hsimp.reshaped with ⟨adj, t, b', hre⟩
    rw [hre, hm₁]
    rfl
  · rcases hsimp.reshaped with ⟨adj, t, b', hre⟩
    rw [hre, hm₁]
    exact hf
  · have hin : e.contains a = true := contains_iff.mpr (by rw [hreg.start, hreg.stop]; exact ⟨h₁, h₂⟩)
    rw [Map.access, Map.access, hsimp.look, hlook₁, if_pos hin, look_of_mem hw.laid hi ⟨h₁, h₂⟩]
    exact congrArg some hreg.access
  · have hout : ¬e.contains a = true := by
      rw [contains_iff, hreg.start, hreg.stop]
      omega
    rw [hsimp.look, hlook₁, if_neg hout]
  rw [Map.access, look_of_mem hsimp.wf.laid hi' ⟨h₁, h₂⟩, hself', hsimp.kept, hself]
  show some (reprotect newProt setMax (e.protection, e.maxProtection))
    = some (e.protection, e.maxProtection)
  rw [hreg.access, reprotect_reprotect]

theorem Reprotected.rest_sublist {pre' rest' : List Nat}
    (h : Reprotected m m' newProt setMax i pre rest pre' rest') : List.Sublist rest' rest := by
  rcases h.back with hback | ⟨n, hback⟩
  · rw [hback]
  · rw [hback]
    exact List.sublist_cons_self n rest'

/-- A turn of the third walk goes on when the entry has pages to copy. -/
theorem protectEntry_isSome (newProt : Prot) (setMax : Bool)
    (h : (m.entry i).eflags.userWired = true → (m.entry i).object.isSome) :
    (m.protectEntry newProt setMax i).isSome := by
  rw [Map.protectEntry, Option.isSome_map]
  split
  case isTrue hcopy =>
    have hsame := newProtection_same newProt setMax (m.entry i)
    rw [hsame.1, Bool.and_eq_true, Bool.and_eq_true] at hcopy
    refine faultCopyEntry_isSome ?_
    rw [setEntry_entry_self, hsame.2]
    exact h hcopy.1.1
  case isFalse => rfl

/-- What the third walk does to a range. -/
structure Protected (m m' : Map) (newProt : Prot) (setMax : Bool) (lo hi : Nat)
    (base : Nat → Nat) : Prop where
  wf : Wf m'
  minOffset : m'.minOffset = m.minOffset
  maxOffset : m'.maxOffset = m.maxOffset
  freshObj : m.freshObj ≤ m'.freshObj
  inside : ∀ a, lo ≤ a → a < hi → m'.access a = (m.access a).map (reprotect newProt setMax)
  outside : ∀ a, a < lo ∨ hi ≤ a → SameAt m.freshObj m'.freshObj base a (m.look a) (m'.look a)

/-- A range in which nothing is mapped. -/
theorem Protected.refl {lo hi : Nat} (h : Wf m) (hlist : m.list = pre ++ rest)
    (hpre : ∀ j ∈ pre, (m.entry j).stop ≤ lo) (hrest : ∀ j ∈ rest, hi ≤ (m.entry j).start) :
    Protected m m newProt setMax lo hi (fun _ => 0) := by
  refine ⟨h, rfl, rfl, le_refl _, fun a hlo hhi => ?_, fun a _ => .kept _⟩
  rw [Map.access, look_between hlist hpre hrest hlo hhi]
  rfl

/-- The third walk changes the protections of what is left of the range: what is in
    front of it ends by the start of the range, and the rest begins no earlier. -/
theorem protectLoop_spec (newProt : Prot) (setMax : Bool) (hi : Nat) :
    ∀ {fuel : Nat} {m m' : Map} {pre rest : List Nat} {lo : Nat}, Wf m → m.list = pre ++ rest →
      (∀ j ∈ pre, (m.entry j).stop ≤ lo) → (∀ j ∈ rest, lo ≤ (m.entry j).start) →
      CutAt m hi rest → Map.protectLoop hi newProt setMax fuel m rest.head? = some m' →
      ∃ base, Protected m m' newProt setMax lo hi base := by
  intro fuel
  induction fuel with
  | zero =>
    intro m m' pre rest lo h hlist hpre hrest hcut hloop
    cases rest with
    | nil =>
      cases hloop
      exact ⟨_, .refl h hlist hpre (by simp)⟩
    | cons i rest => cases hloop
  | succ fuel ih =>
    intro m m' pre rest lo h hlist hpre hrest hcut hloop
    cases rest with
    | nil =>
      cases hloop
      exact ⟨_, .refl h hlist hpre (by simp)⟩
    | cons i rest =>
      rw [List.head?_cons, Map.protectLoop] at hloop
      split at hloop
      case isFalse hge =>
        cases hloop
        exact ⟨_, .refl h hlist hpre
          (h.laid.behind_of_split hlist (not_lt.mp hge))⟩
      case isTrue hlt =>
      split at hloop
      case h_1 => cases hloop
      case h_2 m₁ hentry =>
      rcases protectEntry_spec h hlist hentry with ⟨pre', rest', hre⟩
      have hi₁ : i ∈ m.list := by simp [hlist]
      have hne := h.laid.nonempty i hi₁
      have hlo := hrest i List.mem_cons_self
      have hstop := hcut i List.mem_cons_self hlt
      have hle := hre.le_stop
      have hge := hre.start_le
      have hlist₁ : m₁.list = (pre' ++ [i]) ++ rest' := by simpa using hre.list
      have hsub : ∀ j ∈ rest', j ∈ i :: rest :=
        fun j hj => List.mem_cons_of_mem i (hre.rest_sublist.subset hj)
      rw [next?_of_split hre.wf.tree.nodup hre.list] at hloop
      rcases ih hre.wf hlist₁ (hre.wf.laid.before_of_split hre.list (le_refl _))
        (hre.wf.laid.around hre.list).2
        (fun j hj => by rw [hre.behind j hj]; exact hcut j (hsub j hj)) hloop with
        ⟨base, hprot⟩
      refine ⟨joinBase m₁.freshObj (fun _ => 0) base, hprot.wf,
        hprot.minOffset.trans hre.minOffset, hprot.maxOffset.trans hre.maxOffset,
        hre.freshObj.trans hprot.freshObj, fun a h₁ h₂ => ?_, fun a ha => ?_⟩
      · rcases lt_or_ge a (m₁.entry i).stop with hbefore | hbehind
        · -- The walk is past this address.
          rw [Map.access, (hprot.outside a (.inl hbefore)).access]
          rcases lt_or_ge a (m.entry i).start with hgap | hin
          · have hnone := look_between hlist hpre (h.laid.behind_of_split hlist le_rfl) h₁ hgap
            rw [hre.outside a (.inl hgap), Map.access, hnone]
            rfl
          rcases lt_or_ge a (m.entry i).stop with hself | htaken
          · exact hre.inside a hin hself
          -- It was taken in from behind.
          have hwhole := hre.whole a (by omega) hbefore
          have hsame : m₁.access a = m.access a := by
            rw [Map.access, Map.access, hre.outside a (.inr htaken)]
          rw [hsame] at hwhole
          rw [hwhole]
          exact hsame
        · rw [hprot.inside a hbehind h₂, Map.access, Map.access, hre.outside a (.inr (by omega))]
      have hsame : m₁.look a = m.look a := hre.outside a (by omega)
      have hrest' := hprot.outside a (by omega)
      rw [hsame] at hrest'
      exact (SameAt.kept _).trans hrest' hre.freshObj hprot.freshObj

/-- The third walk ends when every entry it comes to has pages to copy. -/
theorem protectLoop_isSome (newProt : Prot) (setMax : Bool) (hi : Nat) :
    ∀ {fuel : Nat} {m : Map} {pre rest : List Nat}, Wf m → m.list = pre ++ rest →
      rest.length < fuel →
      (∀ j ∈ rest, (m.entry j).eflags.userWired = true → (m.entry j).object.isSome) →
      (Map.protectLoop hi newProt setMax fuel m rest.head?).isSome := by
  intro fuel
  induction fuel with
  | zero => intro m pre rest _ _ hfuel; omega
  | succ fuel ih =>
    intro m pre rest h hlist hfuel hobj
    cases rest with
    | nil => rfl
    | cons i rest =>
      rw [List.head?_cons, Map.protectLoop]
      split
      case isFalse => rfl
      case isTrue =>
      split
      case h_1 hnone =>
        have hsome := protectEntry_isSome newProt setMax
          (hobj i List.mem_cons_self)
        rw [hnone] at hsome
        cases hsome
      case h_2 m₁ hentry =>
      rcases protectEntry_spec h hlist hentry with ⟨pre', rest', hre⟩
      have hlist₁ : m₁.list = (pre' ++ [i]) ++ rest' := by simpa using hre.list
      rw [next?_of_split hre.wf.tree.nodup hre.list]
      refine ih hre.wf hlist₁ ?_ fun j hj => ?_
      · have hlen := hre.rest_sublist.length_le
        rw [List.length_cons] at hfuel
        omega
      · rw [hre.behind j hj]
        exact hobj j (List.mem_cons_of_mem i (hre.rest_sublist.subset hj))

end protect

/-- The first walk finds every protection asked for within the maximum. -/
theorem protectCheck_spec {newProt : Prot} {hi : Nat} (h : Wf m) :
    ∀ {pre rest : List Nat}, m.list = pre ++ rest → m.protectCheck hi newProt rest = .success →
      ∀ i ∈ rest, (m.entry i).start < hi → newProt &&& (m.entry i).maxProtection = newProt := by
  intro pre rest
  induction rest generalizing pre with
  | nil => intro _ _ i hi'; cases hi'
  | cons j rest ih =>
    intro hlist hcheck i hi' hlt
    rw [Map.protectCheck] at hcheck
    split at hcheck
    case isFalse hge =>
      have := h.laid.behind_of_split hlist (not_lt.mp hge) i hi'
      omega
    case isTrue =>
    split at hcheck
    case isTrue => cases hcheck
    case isFalse =>
    split at hcheck
    case isTrue => cases hcheck
    case isFalse hmax =>
    rcases List.mem_cons.mp hi' with hij | hi'
    · rw [hij]
      exact not_not.mp hmax
    · have hlist' : m.list = (pre ++ [j]) ++ rest := by simpa using hlist
      exact ih hlist' hcheck i hi' hlt

/-! ## The whole call -/

/-- The protections at every mapped address lie within the maximum. -/
def Within (m : Map) : Prop := ∀ a p, m.access a = some p → p.1 &&& p.2 = p.1

/-- At every address wired by a user there is an object. -/
def Backed (m : Map) : Prop :=
  ∀ a v, m.look a = some v → v.eflags.userWired = true → v.backing.isSome

theorem Within.congr (h : Within m) (ha : ∀ a, m'.access a = m.access a) :
    Within m' := fun a p hp => h a p (ha a ▸ hp)

/-- New protections within the maximum are still within it. -/
theorem reprotect_within {newProt : Prot} (setMax : Bool) {p : Prot × Prot}
    (hnew : newProt &&& p.2 = newProt) :
    (reprotect newProt setMax p).1 &&& (reprotect newProt setMax p).2
      = (reprotect newProt setMax p).1 := by
  cases setMax with
  | false => exact hnew
  | true =>
    show newProt &&& p.1 &&& newProt = newProt &&& p.1
    rw [BitVec.and_comm, ← BitVec.and_assoc, BitVec.and_self]

theorem Backed.sameAt {base : Nat → Nat} (h : Backed m)
    (hs : ∀ a, SameAt m.freshObj m'.freshObj base a (m.look a) (m'.look a)) : Backed m' := by
  intro a v hv hwired
  have hsame := hs a
  rw [hv] at hsame
  generalize hu : m.look a = u at hsame
  cases hsame with
  | kept => exact h a v hu hwired
  | created v o => rfl

/-- An entry wired by a user has an object. -/
theorem Backed.entry (h : Backed m) (hw : Wf m) (hi : i ∈ m.list)
    (hwired : (m.entry i).eflags.userWired = true) : (m.entry i).object.isSome := by
  have hlook := look_of_mem hw.laid hi ⟨le_refl _, hw.laid.nonempty i hi⟩
  have hsome := h _ _ hlook hwired
  rwa [Entry.view, Option.isSome_map] at hsome

/-- The check of a range leaves the addresses of the map in it. -/
theorem rangeCheck_iff (m : Map) (start stop : Nat) {a : Nat} (hlo : m.minOffset ≤ a)
    (hhi : a < m.maxOffset) :
    (m.rangeCheck start stop).1 ≤ a ∧ a < (m.rangeCheck start stop).2 ↔ start ≤ a ∧ a < stop := by
  simp only [Map.rangeCheck]
  split <;> split <;> split <;> omega

theorem dropWhile_of_split {l pre rest : List Nat} (h : l.Nodup) (hlist : l = pre ++ rest) :
    (match rest.head? with
      | none => []
      | some i => l.dropWhile (· ≠ i)) = rest := by
  cases rest with
  | nil => rfl
  | cons i rest =>
    have hpre : ∀ j ∈ pre, decide (j ≠ i) = true := by
      intro j hj
      rw [decide_eq_true_iff]
      rintro rfl
      exact notMem_front (hlist ▸ h) hj
    rw [hlist, List.head?_cons]
    show (pre ++ i :: rest).dropWhile _ = _
    rw [List.dropWhile_append_of_pos hpre, List.dropWhile_cons_of_neg (by simp)]

/-- What a call does to a range from `lo` to `hi`: nothing when it fails. -/
structure Outcome (m m' : Map) (r : Kern) (newProt : Prot) (setMax : Bool) (lo hi : Nat)
    (base : Nat → Nat) : Prop where
  within : Within m'
  freshObj : m.freshObj ≤ m'.freshObj
  failure : r ≠ .success → ∀ a, m'.access a = m.access a
  inside : r = .success → ∀ a, lo ≤ a → a < hi →
    m'.access a = (m.access a).map (reprotect newProt setMax)
  outside : r = .success → ∀ a, a < lo ∨ hi ≤ a →
    SameAt m.freshObj m'.freshObj base a (m.look a) (m'.look a)

section from_

variable {m : Map} {pre rest : List Nat} {lo : Nat}

/-- The three walks over what is left of a map. -/
theorem protectFrom_spec (h : Wf m) (hmax : Within m) (hlist : m.list = pre ++ rest)
    (hpre : ∀ j ∈ pre, (m.entry j).stop ≤ lo) (hrest : ∀ j ∈ rest, lo ≤ (m.entry j).start)
    (hi : Nat) (cred : Nat) (reserve : Nat → Nat → Bool) (newProt : Prot) (setMax : Bool) :
    (Backed m → (m.protectFrom cred reserve hi newProt setMax rest.head?).isSome) ∧
      ∀ r m', m.protectFrom cred reserve hi newProt setMax rest.head? = some (r, m') →
        ∃ base, Outcome m m' r newProt setMax lo hi base := by
  have hfail : ∀ {r m' base}, r ≠ .success → m.freshObj ≤ m'.freshObj →
      (∀ a, SameAt m.freshObj m'.freshObj base a (m.look a) (m'.look a)) →
      Outcome m m' r newProt setMax lo hi base := fun hr hf hs =>
    ⟨hmax.congr fun a => (hs a).access, hf, fun _ a => (hs a).access, fun hr' => absurd hr' hr,
      fun hr' => absurd hr' hr⟩
  rw [Map.protectFrom.eq_def]
  dsimp only
  rw [dropWhile_of_split h.tree.nodup hlist]
  split
  case h_2 hne =>
    -- The first walk has failed.
    refine ⟨fun _ => rfl, fun r m' hret => ?_⟩
    cases hret
    exact ⟨fun _ => 0, hfail hne (le_refl _) fun a => .kept _⟩
  case h_1 hcheck =>
  have hlen : rest.length < m.list.length + 1 := by
    rw [hlist, List.length_append]
    omega
  rcases chargeLoop_spec cred reserve newProt setMax lo hi h hlist hlen hrest with
    ⟨ok, m₂, rest₂, base₂, hcharge, hhead, hwalk, hcut⟩
  rw [hcharge]
  cases ok with
  | false =>
    refine ⟨fun _ => rfl, fun r m' hret => ?_⟩
    cases hret
    exact ⟨base₂, hfail (by simp) hwalk.freshObj hwalk.look⟩
  | true =>
    dsimp only
    rw [← hhead]
    have hpre₂ : ∀ j ∈ pre, (m₂.entry j).stop ≤ lo := by
      intro j hj
      rw [(hwalk.kept j hj).2]
      exact hpre j hj
    constructor
    · intro hback
      have hback₂ := hback.sameAt hwalk.look
      rw [Option.isSome_map]
      refine protectLoop_isSome newProt setMax hi hwalk.wf hwalk.list ?_
        fun j hj => hback₂.entry hwalk.wf (by simp [hwalk.list, hj])
      rw [hwalk.list, List.length_append]
      omega
    intro r m' hret
    rcases Option.map_eq_some_iff.mp hret with ⟨m₃, hloop, heq⟩
    cases heq
    rcases protectLoop_spec newProt setMax hi hwalk.wf hwalk.list hpre₂ hwalk.behind
      (hcut rfl) hloop with ⟨base₃, hprot⟩
    have haccess : ∀ a, m₂.access a = m.access a := fun a => (hwalk.look a).access
    have hinside : ∀ a, lo ≤ a → a < hi →
        m'.access a = (m.access a).map (reprotect newProt setMax) := by
      intro a h₁ h₂
      rw [hprot.inside a h₁ h₂, haccess]
    have houtside : ∀ a, a < lo ∨ hi ≤ a → SameAt m.freshObj m'.freshObj
        (joinBase m₂.freshObj base₂ base₃) a (m.look a) (m'.look a) := fun a ha =>
      (hwalk.look a).trans (hprot.outside a ha) hwalk.freshObj hprot.freshObj
    refine ⟨_, fun a p hp => ?_, hwalk.freshObj.trans hprot.freshObj, fun hr => absurd rfl hr,
      fun _ => hinside, fun _ => houtside⟩
    rcases lt_or_ge a lo with hlt | hge
    · exact hmax a p (((houtside a (.inl hlt)).access).symm.trans hp)
    rcases lt_or_ge a hi with hlt | hge'
    · -- The first walk found the new protections within the maximum.
      rw [hinside a hge hlt] at hp
      rcases Option.map_eq_some_iff.mp hp with ⟨q, hq, rfl⟩
      rcases Option.map_eq_some_iff.mp hq with ⟨v, hv, rfl⟩
      rcases exists_of_look hv with ⟨j, hj, ha, rfl⟩
      refine reprotect_within setMax ?_
      rw [hlist, List.mem_append] at hj
      rcases hj with hj | hj
      · have := hpre j hj
        omega
      · exact protectCheck_spec h hlist hcheck j hj (by omega)
    · exact hmax a p (((houtside a (.inr hge')).access).symm.trans hp)

end from_

/-- Changing the protections of a range: a failure leaves the protections at every
    address as they were; a success gives every mapped address of the range the new
    ones and leaves what is mapped elsewhere alone; and either way the protections
    stay within the maximum. The call returns when what is wired by a user has
    pages. -/
theorem vm_map_protect_all_or_nothing (m : Map) (h : Wf m) (hmax : Within m) (cred : Nat)
    (reserve : Nat → Nat → Bool) (start stop : Nat) (newProt : Prot) (setMax : Bool) :
    (Backed m → (m.protect cred reserve start stop newProt setMax).isSome) ∧
      ∀ r m', m.protect cred reserve start stop newProt setMax = some (r, m') →
        ∃ base, Outcome m m' r newProt setMax start stop base := by
  rw [Map.protect]
  split
  case isTrue hempty =>
    refine ⟨fun _ => rfl, fun r m' hret => ?_⟩
    cases hret
    exact ⟨fun _ => 0, hmax, le_refl _, fun _ _ => rfl, fun _ a _ _ => by omega, fun _ a _ => .kept _⟩
  case isFalse =>
  have hiff := fun a => rangeCheck_iff m.lock start stop (a := a)
  rcases hrange : m.lock.rangeCheck start stop with ⟨lo, hi⟩
  rw [hrange] at hiff
  rcases deleteFirst_spec h.lock lo with ⟨m₁, pre, rest, base₁, hfirst, hst⟩
  simp only [hrange, hfirst]
  dsimp only at hiff
  have hlook₁ : ∀ a, SameAt m.freshObj m₁.freshObj base₁ a (m.look a) (m₁.look a) := hst.look
  have haccess₁ : ∀ a, m₁.access a = m.access a := fun a => (hlook₁ a).access
  have hspec := protectFrom_spec hst.wf (hmax.congr haccess₁) hst.list hst.before hst.behind hi
    cred reserve newProt setMax
  refine ⟨fun hback => hspec.1 (hback.sameAt hlook₁), fun r m' hret => ?_⟩
  rcases hspec.2 r m' hret with ⟨base₂, hout⟩
  have hfresh : m.freshObj ≤ m₁.freshObj := hst.freshObj
  -- Nothing is mapped outside the map.
  have hmiss : ∀ a, a < m.minOffset ∨ m.maxOffset ≤ a → m.look a = none := by
    intro a ha
    refine look_eq_none fun i hi' hin => ?_
    have := h.laid.low i hi'
    have := h.laid.high i hi'
    omega
  refine ⟨joinBase m₁.freshObj base₁ base₂, hout.within, hfresh.trans hout.freshObj,
    fun hr a => (hout.failure hr a).trans (haccess₁ a), fun hr a h₁ h₂ => ?_, fun hr a ha => ?_⟩
  · rcases Decidable.em (lo ≤ a ∧ a < hi) with hin | hin
    · rw [hout.inside hr a hin.1 hin.2, haccess₁]
    have hlook := hmiss a (by have := hiff a; show a < m.lock.minOffset ∨ m.lock.maxOffset ≤ a; omega)
    rw [Map.access, (hout.outside hr a (by omega)).access]
    show m₁.access a = _
    rw [haccess₁, Map.access, hlook]
    rfl
  rcases Decidable.em (lo ≤ a ∧ a < hi) with hin | hin
  · have hlook := hmiss a (by have := hiff a; show a < m.lock.minOffset ∨ m.lock.maxOffset ≤ a; omega)
    have hnone := hout.inside hr a hin.1 hin.2
    rw [haccess₁, Map.access, Map.access, hlook] at hnone
    rw [hlook, Option.map_eq_none_iff.mp hnone]
    exact .kept _
  · exact (hlook₁ a).trans (hout.outside hr a (by omega)) hfresh hout.freshObj

theorem sample_within : Within sample := by
  intro a p hp
  rcases Option.map_eq_some_iff.mp hp with ⟨v, hv, rfl⟩
  rcases exists_of_look hv with ⟨i, hi, -, rfl⟩
  have hall : ∀ i ∈ [0, 1], (sample.entry i).protection &&& (sample.entry i).maxProtection
      = (sample.entry i).protection := by decide
  exact hall i hi

theorem sample_backed : Backed sample := by
  intro a v hv hwired
  rcases exists_of_look hv with ⟨i, hi, -, rfl⟩
  have hall : ∀ i ∈ [0, 1], (sample.entry i).eflags.userWired = false := by decide
  rw [Entry.view, hall i hi] at hwired
  cases hwired

/-- The middle of the sample map is made read-only. -/
theorem vm_map_protect_all_or_nothing_sample :
    ∃ m' base, sample.protect 0 (fun _ _ => true) 10240 18432 1 false = some (.success, m') ∧
      Outcome sample m' .success 1 false 10240 18432 base := by
  have h := vm_map_protect_all_or_nothing sample sample_wf sample_within 0 (fun _ _ => true)
    10240 18432 1 false
  rcases Option.isSome_iff_exists.mp (h.1 sample_backed) with ⟨⟨r, m'⟩, hret⟩
  rcases h.2 r m' hret with ⟨base, hout⟩
  have hr : (sample.protect 0 (fun _ _ => true) 10240 18432 1 false).map Prod.fst
      = some .success := by decide
  rw [hret, Option.map_some, Option.some.injEq] at hr
  dsimp only at hr
  rw [hr] at hret hout
  exact ⟨m', base, hret, hout⟩

/-! ## Checking protections -/

/-- The loop of `vm_map_check_protection`, along the entries from one on. -/
def Map.checkLoop (m : Map) (stop : Nat) (protection : Prot) : List Nat → Nat → Bool
  | [], start => decide (stop ≤ start)
  | entry :: rest, start =>
    if start < stop then
      -- No holes allowed!
      if start < (m.entry entry).start then false
      else if (m.entry entry).protection &&& protection ≠ protection then false
      else m.checkLoop stop protection rest (m.entry entry).stop
    else true

/-- `vm_map_check_protection`. -/
def Map.checkProtection (m : Map) (mayWrite : Bool) (start stop : Nat) (protection : Prot) : Bool :=
  match m.lookupEntry mayWrite start with
  | (m, true, some entry) => m.checkLoop stop protection (m.list.dropWhile (· ≠ entry)) start
  | _ => false

/-- Every address from `lo` up to `hi` is mapped with a protection. -/
def Allows (m : Map) (protection : Prot) (lo hi : Nat) : Prop :=
  ∀ a, lo ≤ a → a < hi → ∃ v, m.look a = some v ∧ v.protection &&& protection = protection

section Check

variable {m : Map} {pre post : List Nat} {start : Nat}

theorem checkLoop_iff (h : Wf m) (stop : Nat) (protection : Prot) (hlist : m.list = pre ++ post)
    (hpre : ∀ i ∈ pre, (m.entry i).stop ≤ start) (hpost : ∀ i ∈ post, start < (m.entry i).stop) :
    m.checkLoop stop protection post start = true ↔ Allows m protection start stop := by
  induction post generalizing pre start with
  | nil =>
    rw [Map.checkLoop, decide_eq_true_iff]
    refine ⟨fun hle a hlo hhi => absurd hhi (by omega), fun hall => not_lt.mp fun hlt => ?_⟩
    rcases hall start le_rfl hlt with ⟨v, hv, -⟩
    rw [look_between hlist hpre (by simp) le_rfl (Nat.lt_succ_self _)] at hv
    cases hv
  | cons e post ih =>
    have hstop := hpost e List.mem_cons_self
    have hview : ∀ a, (m.entry e).start ≤ a → a < (m.entry e).stop →
        m.look a = some ((m.entry e).view a) :=
      fun a hlo hhi => look_of_mem h.laid (by simp [hlist]) ⟨hlo, hhi⟩
    rw [Map.checkLoop]
    split_ifs with hlt hhole hprot
    · refine iff_of_false not_false fun hall => ?_
      rcases hall start le_rfl hlt with ⟨v, hv, -⟩
      rw [look_between hlist hpre (h.laid.behind_of_split hlist le_rfl) le_rfl hhole] at hv
      cases hv
    · refine iff_of_false not_false fun hall => hprot ?_
      rcases hall start le_rfl hlt with ⟨v, hv, hp⟩
      rw [hview start (by omega) hstop, Option.some.injEq] at hv
      rwa [← hv] at hp
    · rw [ih (by simp [hlist]) (h.laid.before_of_split hlist le_rfl) fun i hi =>
        ((h.laid.around hlist).2 i hi).trans_lt (h.laid.nonempty i (by simp [hlist, hi]))]
      refine ⟨fun hall a hlo hhi => ?_, fun hall a hlo => hall a (by omega)⟩
      rcases lt_or_ge a (m.entry e).stop with hin | hout
      · exact ⟨_, hview a (by omega) hin, not_not.mp hprot⟩
      · exact hall a hout hhi
    · exact iff_of_true rfl fun a hlo hhi => absurd hhi (by omega)

/-- A range is reported to have a protection exactly if its first address is mapped, also
    when the range is empty, and every address in it is mapped with the protection. -/
theorem checkProtection_iff (h : Wf m) (mayWrite : Bool) (start stop : Nat) (protection : Prot) :
    m.checkProtection mayWrite start stop protection = true ↔
      (m.look start).isSome ∧ Allows m protection start stop := by
  rcases lookup_spec h mayWrite start with ⟨t, b, e, heq, hwf, hans⟩
  rw [Map.checkProtection, heq]
  cases hans with
  | hit pre i post hlist hstart hstop =>
    have hdrop : m.list.dropWhile (· ≠ i) = i :: post := dropWhile_of_split h.tree.nodup hlist
    rw [look_of_mem h.laid (by simp [hlist]) ⟨hstart, hstop⟩]
    dsimp only
    rw [hdrop]
    refine (checkLoop_iff hwf stop protection hlist
      (fun j hj => ((h.laid.around hlist).1 j hj).trans hstart) fun j hj => ?_).trans
      (and_iff_right rfl).symm
    rcases List.mem_cons.mp hj with rfl | hj
    · exact hstop
    · exact (hstop.trans_le ((h.laid.around hlist).2 j hj)).trans
        (h.laid.nonempty j (by simp [hlist, hj]))
  | miss pre post hlist hpre hpost =>
    rw [look_between hlist hpre hpost le_rfl (Nat.lt_succ_self _)]
    exact iff_of_false Bool.false_ne_true fun hall => Bool.false_ne_true hall.1

/-- The first entry of the sample map allows reading all over. -/
theorem checkProtection_iff_sample : (sample.look 8192).isSome ∧ Allows sample 1 8192 12288 :=
  (checkProtection_iff sample_wf true 8192 12288 1).mp (by decide)

end Check

end FreeBSDKern.VmMap
