import FreeBSDKern.VmMap.Findspace
import FreeBSDKern.VmMap.Insert

/-!
# Growing a Stack

`vm_map_growstack` is called for a fault at an address that is not mapped. It looks
for a stack next to the address that grows towards it, and grows it by the pages
that are needed, rounded up to `sgrowsiz` and cut down to what the limits allow.

What is needed is compared with the room up to the neighbouring entry, the guard
page included. The amount rounded up is compared with the room only to see
whether the stack would grow into its neighbour, and only then is room left for
the guard page: when the amount is just the room, the stack grows up to its
neighbour. And a stack that grows both ways and has grown down keeps what it had
left for growing up, although the new part has it too. `growstack_well_iff` says
when neither happens.

The map is taken up to the point where it is unlocked; the wiring of the new pages
that `MAP_WIREFUTURE` asks for is a call of its own, and the range it is made for is
returned.

## Main definitions

* `Map.growChoice`, `growAmount`, `Vmspace.growstack`: `vm_map_growstack`.
* `stackUse`: How much of its size limit a stack uses, reserve included.
* `GrownWell`, `GrowsWell`: What is asked of a growth, and when it is so.

## Theorems

* `mapInsert_stack`: Inserting the new part of a stack.
* `growstack_well_iff`: When a growth is as it should be.
-/

namespace FreeBSDKern.VmMap

open Lib Function

/-- `roundup`. -/
def roundup (x y : Nat) : Nat := uadd x (y - 1) / y * y

/-- `trunc_page`. -/
def truncPage (x : Nat) : Nat := x / pageSize * pageSize

/-- `ctob`. -/
def ctob (pages : Nat) : Nat := pages * pageSize % 2 ^ 64

/-- Which way a stack grows towards an address. -/
inductive Way where
  | down
  | up
  deriving Repr, DecidableEq

/-- The stack to grow and the entry it grows towards. -/
structure Choice where
  way : Way
  entry : Nat
  neighbour : Option Nat
  deriving Repr, DecidableEq

/-- A process's address space. `ssize` is the size of its stack in pages, and
    `maxsaddr` the lowest address the stack may reach. -/
structure Vmspace where
  map : Map
  ssize : Nat
  maxsaddr : Nat

/-- The settings and limits growing a stack depends on, and what the rest of the
    kernel answers. The `racct` functions say whether an amount is refused. -/
structure Limits where
  env : Env
  stackGuardPage : Bool
  sgrowsiz : Nat
  usrstack : Nat
  lmemlim : Nat
  stacklim : Nat
  vmemlim : Nat
  oldMlock : Bool
  wireFuture : Bool
  wiredCount : Nat
  racctStack : Nat → Bool
  racctMemlock : Nat → Bool
  racctVmem : Nat → Bool
  swapReserveByCred : Nat → Nat → Bool
  mayWrite : Bool

/-- The guard page, when there is one. -/
def Limits.guard (g : Limits) : Nat := if g.stackGuardPage then pageSize else 0

namespace Map

/-- The entries around an address and the stack among them that grows towards it.
    When both do, the closer one. -/
def growChoice (m : Map) (addr : Nat) (prev : Option Nat) : Option Choice :=
  let next := m.nextOf prev
  let up := prev.filter fun p => (m.entry p).eflags.growsUp
  let down := next.filter fun n => (m.entry n).eflags.growsDown
  match up, down with
  | none, none => none
  | none, some n => some ⟨.down, n, prev⟩
  | some p, none => some ⟨.up, p, next⟩
  | some p, some n =>
    if usub addr (m.entry p).stop ≤ usub (m.entry n).start addr then some ⟨.up, p, next⟩
    else some ⟨.down, n, prev⟩

/-- Where the room for growing ends: at the neighbour, or where the reserve does. -/
def growEnd (m : Map) (c : Choice) : Nat :=
  let e := m.entry c.entry
  match c.way, c.neighbour with
  | .down, some p => (m.entry p).stop
  | .down, none => usub e.start e.availSsize
  | .up, some n => (m.entry n).start
  | .up, none => uadd e.stop e.availSsize

/-- The pages that are needed to reach an address. -/
def growNeed (m : Map) (c : Choice) (addr : Nat) : Nat :=
  let e := m.entry c.entry
  match c.way with
  | .down => roundup (usub e.start addr) pageSize
  | .up => roundup (usub (uadd addr 1) e.stop) pageSize

/-- The room there is. -/
def maxGrow (m : Map) (c : Choice) : Nat :=
  let e := m.entry c.entry
  match c.way with
  | .down => usub e.start (m.growEnd c)
  | .up => usub (m.growEnd c) e.stop

/-- Whether growing by an amount would pass the end of the room. -/
def cutBack (m : Map) (c : Choice) (amount : Nat) : Bool :=
  match c.way with
  | .down => decide (usub (m.entry c.entry).start amount < m.growEnd c)
  | .up => decide (m.growEnd c < uadd (m.entry c.entry).stop amount)

/-- The address to grow to: the end of the room less the guard page when growing is
    cut back. -/
def growEdge (m : Map) (g : Limits) (c : Choice) (amount : Nat) : Nat :=
  match c.way with
  | .down =>
    if m.cutBack c amount then uadd (m.growEnd c) g.guard else usub (m.entry c.entry).start amount
  | .up =>
    if m.cutBack c amount then usub (m.growEnd c) g.guard else uadd (m.entry c.entry).stop amount

/-- The reserve, which is cut down to the room when growing is cut back. -/
def growReserve (m : Map) (c : Choice) (amount : Nat) : Nat :=
  if m.cutBack c amount then m.maxGrow c else (m.entry c.entry).availSsize

/-- Growing downward to an address, out of a reserve: the new part is an entry of its
    own and takes over the reserve. -/
def growDown (m : Map) (g : Limits) (c : Choice) (addr reserve : Nat) : Option (Kern × Map) :=
  let e := { m.entry c.entry with availSsize := reserve }
  let m := m.setEntry c.entry e
  let (rv, m) := m.mapInsert g.env none 0 addr e.start e.protection e.maxProtection
    { stackGrowsDown := true }
  if rv = .success then
    match m.nextOf c.neighbour with
    | none => none
    | some new =>
      let n := m.entry new
      let m := m.setEntry new { n with availSsize := usub reserve (usub n.stop n.start) }
      let e := m.entry c.entry
      some (rv, m.setEntry c.entry { e with eflags := { e.eflags with growsDown := false } })
  else some (rv, m)

/-- Whom a stack is charged to. -/
def growCred (m : Map) (e : Entry) : Option Nat :=
  match e.cred, e.object with
  | none, some o => (m.obj o).cred
  | cred, _ => cred

/-- Growing upward to an address, out of a reserve: the entry gets longer. -/
def growUp (m : Map) (g : Limits) (c : Choice) (addr reserve : Nat) : Kern × Map :=
  let e := { m.entry c.entry with availSsize := reserve }
  let m := m.setEntry c.entry e
  let amount := usub addr e.stop
  let cred := m.growCred e
  if cred.any fun cr => !g.swapReserveByCred amount cr then (.noSpace, m)
  else
    let (ok, m) := m.objectCoalesce g.env e.object e.offset (e.stop - e.start) amount cred.isSome
    if ok then
      let m := { m with size := m.size + usub addr e.stop }
      let m := m.setEntry c.entry { e with stop := addr, availSsize := usub reserve amount }
      (.success, m.resizeFree c.entry)
    else (.failure, m)

end Map

namespace Vmspace

/-- Whether an address belongs to the process's own stack. -/
def isProcstack (v : Vmspace) (g : Limits) (addr : Nat) : Bool :=
  decide (v.maxsaddr ≤ addr) && decide (addr < g.usrstack)

/-- The amount to grow by: what is needed rounded up to `sgrowsiz`, but no more than
    the reserve and, for the process's own stack, than its limit. -/
def growAmount (v : Vmspace) (g : Limits) (addr avail need : Nat) : Nat :=
  let amount := roundup need g.sgrowsiz
  let amount := if avail < amount then avail else amount
  if v.isProcstack g addr && decide (g.stacklim < uadd (ctob v.ssize) amount) then
    usub (truncPage g.stacklim) (ctob v.ssize)
  else amount

/-- Whether the stack limits refuse what is needed. -/
def stackRefused (v : Vmspace) (g : Limits) (addr need : Nat) : Bool :=
  v.isProcstack g addr && (decide (g.stacklim < uadd (ctob v.ssize) need)
    || g.racctStack (uadd (ctob v.ssize) need))

/-- Whether the limits on locked and on virtual memory refuse an amount. -/
def mapRefused (v : Vmspace) (g : Limits) (amount : Nat) : Bool :=
  !g.oldMlock && g.wireFuture && (decide (g.lmemlim < uadd (ctob g.wiredCount) amount)
    || g.racctMemlock (uadd (ctob g.wiredCount) amount))
  || decide (g.vmemlim < uadd v.map.size amount) || g.racctVmem (uadd v.map.size amount)

/-- `btoc`. -/
def btoc (x : Nat) : Nat := uadd x (pageSize - 1) / pageSize

/-- The end of `vm_map_growstack`, from the upgrade of the lock on. -/
def growBy (v : Vmspace) (g : Limits) (addr : Nat) (c : Choice) (amount : Nat) :
    Option (Kern × Vmspace × Option (Nat × Nat)) :=
  let m := v.map.lock
  let edge := m.growEdge g c amount
  let (lo, hi) := match c.way with
    | .down => (edge, (m.entry c.entry).start)
    | .up => ((m.entry c.entry).stop, edge)
  let grown := match c.way with
    | .down => m.growDown g c edge (m.growReserve c amount)
    | .up => some (m.growUp g c edge (m.growReserve c amount))
  grown.map fun (rv, m) =>
    if rv = .success then
      (rv, { v with
        map := m
        ssize := if v.isProcstack g addr then v.ssize + btoc (usub hi lo) else v.ssize },
        some (lo, hi))
    else (rv, { v with map := m }, none)

/-- `vm_map_growstack`, with the range the stack has grown by. An upgrade of the lock
    that fails starts the call over, so the call is taken from its last start.
    `none` when it divides by a zero `sgrowsiz`. -/
def growstack (v : Vmspace) (g : Limits) (addr : Nat) :
    Option (Kern × Vmspace × Option (Nat × Nat)) :=
  match v.map.lookupEntry g.mayWrite addr with
  | (m, true, _) => some (.success, { v with map := m }, none)
  | (m, false, prev) =>
    let v := { v with map := m }
    match m.growChoice addr prev with
    | none => some (.success, v, none)
    | some c =>
      let e := m.entry c.entry
      let need := m.growNeed c addr
      if e.availSsize < need then some (.noSpace, v, none)
      else if m.maxGrow c < uadd need g.guard then
        let m := m.lock.setEntry c.entry { e with availSsize := m.maxGrow c }
        some (.noSpace, { v with map := m }, none)
      else if v.stackRefused g addr need then some (.noSpace, v, none)
      else if g.sgrowsiz = 0 then none
      else
        let amount := v.growAmount g addr e.availSsize need
        if v.mapRefused g amount then some (.noSpace, v, none)
        else v.growBy g addr c amount

end Vmspace

/-! ## Inserting the new part of a stack -/

section insert

variable {m : Map} {pre post : List Nat} {e : Entry}

/-- An entry that is not to be merged is made and linked, and that is all. -/
theorem insertNew_unmergeable (h : Wf m) (hr : Room m pre post e.start e.stop)
    (hflags : e.eflags.unmergeable = true) :
    (m.insertNew pre.getLast? e).list = pre ++ m.fresh :: post ∧
      (m.insertNew pre.getLast? e).entry = update m.entry m.fresh e ∧
      Wf (m.insertNew pre.getLast? e) := by
  rcases linkNew_spec h hr with ⟨adj, t, heq, hwf⟩
  have hself : (m.entryCreate e).entry m.fresh = e := update_self ..
  have hdef : m.insertNew pre.getLast? e = { (m.entryCreate e).withTree (pre ++ m.fresh :: post)
      adj t with size := m.size + (e.stop - e.start) } := by
    rw [Map.insertNew, heq, Map.simplifyEntry, if_pos]
    · rfl
    show ((m.entryCreate e).entry m.fresh).eflags.unmergeable = true
    rw [hself]
    exact hflags
  rw [hdef]
  exact ⟨rfl, rfl, hwf⟩

variable {s addr need avail : Nat}

/-- A place in the list is given by where the entries lie. -/
theorem split_at_unique {pre' post' : List Nat} (hlist : pre ++ post = pre' ++ post')
    (hpre : ∀ j ∈ pre, (m.entry j).start < s) (hpost : ∀ j ∈ post, s ≤ (m.entry j).start)
    (hpre' : ∀ j ∈ pre', (m.entry j).start < s) (hpost' : ∀ j ∈ post', s ≤ (m.entry j).start) :
    pre = pre' ∧ post = post' := by
  have hfilter : ∀ l₁ l₂ : List Nat, (∀ j ∈ l₁, (m.entry j).start < s) →
      (∀ j ∈ l₂, s ≤ (m.entry j).start) →
      (l₁ ++ l₂).filter (fun j => decide ((m.entry j).start < s)) = l₁ := by
    intro l₁ l₂ h₁ h₂
    have hnil : l₂.filter (fun j => decide ((m.entry j).start < s)) = [] := by
      rw [List.filter_eq_nil_iff]
      intro j hj hlt
      have := h₂ j hj
      have := of_decide_eq_true hlt
      omega
    rw [List.filter_append, hnil, List.append_nil, List.filter_eq_self]
    exact fun j hj => decide_eq_true (h₁ j hj)
  have hpres : pre = pre' := by
    rw [← hfilter pre post hpre hpost, hlist, hfilter pre' post' hpre' hpost']
  refine ⟨hpres, ?_⟩
  rw [hpres] at hlist
  exact List.append_cancel_left hlist

/-- The new part of a stack is an entry of its own in front of the old one. -/
theorem mapInsert_stack (h : Wf m) (env : Env) {i : Nat} (prot max : Prot)
    (hlist : m.list = pre ++ i :: post) {m' : Map}
    (hins : m.mapInsert env none 0 addr (m.entry i).start prot max { stackGrowsDown := true }
      = (.success, m')) :
    addr < (m.entry i).start ∧ (∀ j ∈ pre, (m.entry j).stop ≤ addr) ∧
      m'.list = pre ++ m.fresh :: i :: post ∧ Wf m' ∧ ∃ cred, m'.entry = update m.entry m.fresh
        (Map.newEntry none 0 addr (m.entry i).start prot max { stackGrowsDown := true } cred) := by
  rw [Map.mapInsert.eq_def] at hins
  split at hins
  case isTrue => cases hins
  case isFalse hrange =>
  rcases lookup_spec h true addr with ⟨t, b, e, heq, hwf, hans⟩
  rw [heq] at hins
  cases hans with
  | hit => cases hins
  | miss pre' post' hlist' hpre' hpost' =>
    dsimp only at hins
    set m₀ : Map := { m with root := t }
    have hnext : m₀.nextOf pre'.getLast? = post'.head? := nextOf_split h.tree.nodup hlist'
    rw [hnext] at hins
    split at hins
    case isFalse => cases hins
    case isTrue hroom =>
    have hlt : addr < (m.entry i).start := by omega
    have hbehind : ∀ j ∈ post', (m.entry i).start ≤ (m.entry j).start := by
      cases post' with
      | nil => simp
      | cons n post' =>
        have hn : (m.entry i).start ≤ (m₀.entry n).start := by
          simpa [Map.roomBefore] using hroom
        exact hwf.laid.behind_of_split (hlist' : m₀.list = pre' ++ n :: post') hn
    have hsplit := split_at_unique (m := m) (s := (m.entry i).start) (hlist.symm.trans hlist')
      (fun j hj => by
        have := (h.laid.around hlist).1 j hj
        have := h.laid.nonempty j (by simp [hlist, hj])
        omega)
      (h.laid.behind_of_split hlist (le_refl _))
      (fun j hj => by
        have := hpre' j hj
        have := h.laid.nonempty j (by simp [hlist', hj])
        omega) hbehind
    have hr : ∀ cred, Room m₀ pre' post' (Map.newEntry none 0 addr (m.entry i).start prot max
        { stackGrowsDown := true } cred).start (Map.newEntry none 0 addr (m.entry i).start prot
        max { stackGrowsDown := true } cred).stop := by
      intro cred
      rw [not_or, not_or] at hrange
      exact ⟨hlist', hlt, hpre', hbehind, by show m.minOffset ≤ addr; omega,
        by show (m.entry i).start ≤ m.maxOffset; omega⟩
    split at hins
    case h_1 => cases hins
    case h_2 cred hcred =>
    have hnew := insertNew_unmergeable hwf (hr cred) rfl
    have hdef : m₀.insertFree env pre'.getLast? none 0 addr (m.entry i).start prot max
        { stackGrowsDown := true } cred = m₀.insertNew pre'.getLast? (Map.newEntry none 0 addr
          (m.entry i).start prot max { stackGrowsDown := true } cred) := by
      rw [Map.insertFree.eq_def]
      cases pre'.getLast? with
      | none => rfl
      | some p =>
        have hext : m₀.extendable (m₀.entry p) { stackGrowsDown := true } addr cred
            = false := by simp [Map.extendable]
        dsimp only
        rw [hext]
        rfl
    rw [← hdef] at hnew
    simp only [Prod.mk.injEq, true_and] at hins
    rw [hins] at hnew
    refine ⟨hlt, ?_, ?_, hnew.2.2, cred, hnew.2.1⟩
    · rw [hsplit.1]
      exact hpre'
    · rw [hnew.1, ← hsplit.1, ← hsplit.2]

end insert

/-! ## What growing does to the entries -/

/-- What an entry may still grow by. -/
def Entry.reserve (e : Entry) : Nat :=
  if e.eflags.growsDown || e.eflags.growsUp then e.availSsize else 0

/-- What an entry maps and may still grow by. -/
def Entry.use (e : Entry) : Nat := e.stop - e.start + e.reserve

/-- How much of its limit a stack uses. -/
def stackUse (m : Map) (stack : List Nat) : Nat := (stack.map fun i => (m.entry i).use).sum

/-- A stack entry that was given a new part in front of it, from `lo` on, which took
    over the reserve `r`. -/
structure GrewDown (m m' : Map) (pre : List Nat) (i : Nat) (post : List Nat) (lo r : Nat) :
    Prop where
  list : m'.list = pre ++ m.fresh :: i :: post
  lt : lo < (m.entry i).start
  before : ∀ j ∈ pre, (m.entry j).stop ≤ lo
  newStart : (m'.entry m.fresh).start = lo
  newStop : (m'.entry m.fresh).stop = (m.entry i).start
  newReserve : (m'.entry m.fresh).reserve = usub r (usub (m.entry i).start lo)
  selfStart : (m'.entry i).start = (m.entry i).start
  selfStop : (m'.entry i).stop = (m.entry i).stop
  selfReserve : (m'.entry i).reserve = if (m.entry i).eflags.growsUp then r else 0
  other : ∀ j, j ≠ i → j ≠ m.fresh → m'.entry j = m.entry j

/-- A stack entry that now ends at `hi`, out of a reserve `r`. -/
structure GrewUp (m m' : Map) (i hi r : Nat) : Prop where
  list : m'.list = m.list
  selfStart : (m'.entry i).start = (m.entry i).start
  selfStop : (m'.entry i).stop = hi
  selfReserve : (m'.entry i).reserve
    = if (m.entry i).eflags.growsDown || (m.entry i).eflags.growsUp
      then usub r (usub hi (m.entry i).stop) else 0
  other : ∀ j, j ≠ i → m'.entry j = m.entry j

section grow

variable {m m' : Map} {pre post : List Nat} {g : Limits} {c : Choice} {r : Nat}

theorem growDown_spec (h : Wf m) (hlist : m.list = pre ++ c.entry :: post)
    (hneigh : c.neighbour = pre.getLast?) {lo : Nat}
    (hgrow : m.growDown g c lo r = some (.success, m')) : GrewDown m m' pre c.entry post lo r := by
  set i := c.entry with hi
  set m₀ := m.setEntry i { m.entry i with availSsize := r } with hm₀
  have hwf₀ : Wf m₀ := h.same (.setEntry m rfl rfl)
  have hself₀ : m₀.entry i = { m.entry i with availSsize := r } := setEntry_entry_self m i _
  have hstart₀ : (m₀.entry i).start = (m.entry i).start := by rw [hself₀]
  have hother₀ : ∀ j, j ≠ i → m₀.entry j = m.entry j := fun j hj => setEntry_entry_of_ne m _ hj
  have him : i ∈ m.list := by simp [hlist]
  have hfresh : m.fresh ≠ i := (h.tree.fresh i him).ne'
  rw [Map.growDown] at hgrow
  simp only [← hi, ← hm₀] at hgrow
  rw [← hstart₀] at hgrow
  rcases hins : m₀.mapInsert g.env none 0 lo (m₀.entry i).start (m.entry i).protection
    (m.entry i).maxProtection { stackGrowsDown := true } with ⟨rv, m₁⟩
  rw [hins] at hgrow
  dsimp only at hgrow
  split at hgrow
  case isFalse hrv =>
    cases hgrow
    exact absurd rfl hrv
  case isTrue hrv =>
  rw [hrv] at hins
  rcases mapInsert_stack hwf₀ g.env _ _ (hlist : m₀.list = pre ++ i :: post) hins with
    ⟨hlt, hbefore, hlist₁, hwf₁, cred, hentry₁⟩
  have hnext : m₁.nextOf c.neighbour = some m.fresh := by
    rw [hneigh, nextOf_split hwf₁.tree.nodup hlist₁]
    rfl
  rw [hnext] at hgrow
  simp only [Option.some.injEq, Prod.mk.injEq] at hgrow
  rcases hgrow with ⟨-, rfl⟩
  have hnew₁ : m₁.entry m.fresh = Map.newEntry none 0 lo (m₀.entry i).start (m.entry i).protection
      (m.entry i).maxProtection { stackGrowsDown := true } cred := by
    rw [hentry₁]
    exact update_self ..
  have hself₁ : m₁.entry i = m₀.entry i := by
    rw [hentry₁]
    exact update_of_ne hfresh.symm _ _
  refine ⟨hlist₁, hstart₀ ▸ hlt, fun j hj => ?_, ?_, ?_, ?_, ?_, ?_, ?_, fun j hji hjn => ?_⟩
  · rw [← hother₀ j ?_]
    · exact hbefore j hj
    · rintro rfl
      exact notMem_rest (hlist ▸ h.tree.nodup) (List.mem_append_left _ hj)
  · rw [setEntry_entry_of_ne _ _ hfresh, setEntry_entry_self, hnew₁]
    rfl
  · rw [setEntry_entry_of_ne _ _ hfresh, setEntry_entry_self, hnew₁]
    exact hstart₀
  · rw [setEntry_entry_of_ne _ _ hfresh, setEntry_entry_self, hnew₁, hstart₀]
    rfl
  · rw [setEntry_entry_self, setEntry_entry_of_ne _ _ hfresh.symm, hself₁, hself₀]
  · rw [setEntry_entry_self, setEntry_entry_of_ne _ _ hfresh.symm, hself₁, hself₀]
  · rw [setEntry_entry_self, setEntry_entry_of_ne _ _ hfresh.symm, hself₁, hself₀, Entry.reserve,
      Bool.false_or]
  · rw [setEntry_entry_of_ne _ _ hji, setEntry_entry_of_ne _ _ hjn, hentry₁]
    exact (update_of_ne hjn _ _).trans (hother₀ j hji)

theorem resizeFree_entry (m : Map) (i : Nat) :
    (m.resizeFree i).entry = m.entry ∧ (m.resizeFree i).list = m.list := by
  rw [Map.resizeFree]
  dsimp only
  split
  case h_1 => exact ⟨rfl, rfl⟩
  case h_2 => exact ⟨rfl, rfl⟩

theorem growUp_spec {hi : Nat} (hgrow : m.growUp g c hi r = (.success, m')) :
    GrewUp m m' c.entry hi r := by
  set i := c.entry with hi'
  rw [Map.growUp] at hgrow
  simp only [← hi'] at hgrow
  set e : Entry := { m.entry i with availSsize := r }
  set m₀ := m.setEntry i e
  split at hgrow
  case isTrue => cases hgrow
  case isFalse =>
  rcases objectCoalesce_eq m₀ g.env (m.entry i).object (m.entry i).offset
    ((m.entry i).stop - (m.entry i).start) (usub hi (m.entry i).stop)
    (m₀.growCred e).isSome with ⟨ok, b, hok⟩
  rw [hok] at hgrow
  dsimp only at hgrow
  split at hgrow
  case isFalse => cases hgrow
  case isTrue =>
  simp only [Prod.mk.injEq, true_and] at hgrow
  rw [← hgrow]
  set m₁ : Map := { m₀ with obj := b, size := m₀.size + usub hi (m.entry i).stop }
  have hsame := resizeFree_entry (m₁.setEntry i
    { e with stop := hi, availSsize := usub r (usub hi (m.entry i).stop) }) i
  refine ⟨hsame.2, ?_, ?_, ?_, fun j hji => ?_⟩
  · rw [hsame.1, setEntry_entry_self]
  · rw [hsame.1, setEntry_entry_self]
  · rw [hsame.1, setEntry_entry_self, Entry.reserve]
  · rw [hsame.1, setEntry_entry_of_ne _ _ hji]
    exact setEntry_entry_of_ne m e hji

end grow

/-! ## The amounts -/

theorem usub_lt (a b : Nat) : usub a b < 2 ^ 64 := Nat.mod_lt _ (Nat.two_pow_pos 64)

theorem usub_wrap {a b : Nat} (hlt : a < b) (hb : b < 2 ^ 64) : usub a b = a + 2 ^ 64 - b := by
  rw [usub, Nat.mod_eq_of_lt hb, Nat.mod_eq_of_lt (by omega)]
  omega

theorem uadd_wrap {a b : Nat} (ha : a < 2 ^ 64) (hb : b < 2 ^ 64) (hle : 2 ^ 64 ≤ a + b) :
    uadd a b = a + b - 2 ^ 64 := by
  rw [uadd, Nat.mod_eq_sub_mod hle, Nat.mod_eq_of_lt (by omega)]

/-- Rounding up to pages. -/
theorem roundup_page {x : Nat} (h : x + 4096 ≤ 2 ^ 64) :
    x ≤ roundup x pageSize ∧ 4096 ∣ roundup x pageSize ∧ roundup x pageSize < x + 4096 := by
  rw [roundup, pageSize, uadd_eq (by omega)]
  refine ⟨by omega, Nat.dvd_mul_left _ _, by omega⟩

/-- The entries of the map lie on page boundaries, and what a stack may grow by lies
    in the address space. -/
structure StackWf (m : Map) : Prop where
  paged : ∀ i ∈ m.list, pageSize ∣ (m.entry i).start ∧ pageSize ∣ (m.entry i).stop
  below : ∀ i ∈ m.list, (m.entry i).eflags.growsDown = true →
    (m.entry i).availSsize ≤ (m.entry i).start
  above : ∀ i ∈ m.list, (m.entry i).eflags.growsUp = true →
    (m.entry i).stop + (m.entry i).availSsize < 2 ^ 64

section choice

variable {m : Map} {pre post : List Nat} {c : Choice} {addr : Nat}

/-- The stack to grow is next to the address and grows towards it. -/
theorem growChoice_spec (h : Wf m) (hlist : m.list = pre ++ post)
    (hc : m.growChoice addr pre.getLast? = some c) :
    (c.way = .down ∧ c.neighbour = pre.getLast? ∧ (m.entry c.entry).eflags.growsDown = true ∧
      ∃ post', post = c.entry :: post') ∨
    (c.way = .up ∧ c.neighbour = post.head? ∧ (m.entry c.entry).eflags.growsUp = true ∧
      ∃ pre', pre = pre' ++ [c.entry]) := by
  rw [Map.growChoice, nextOf_split h.tree.nodup hlist] at hc
  have hup : ∀ p, pre.getLast?.filter (fun p => (m.entry p).eflags.growsUp) = some p →
      (m.entry p).eflags.growsUp = true ∧ ∃ pre', pre = pre' ++ [p] := by
    intro p hp
    rw [Option.filter_eq_some_iff] at hp
    exact ⟨hp.2, pre.dropLast, (List.dropLast_append_getLast? p hp.1).symm⟩
  have hdown : ∀ n, post.head?.filter (fun n => (m.entry n).eflags.growsDown) = some n →
      (m.entry n).eflags.growsDown = true ∧ ∃ post', post = n :: post' := by
    intro n hn
    rw [Option.filter_eq_some_iff] at hn
    cases post with
    | nil => cases hn.1
    | cons j post =>
      cases hn.1
      exact ⟨hn.2, post, rfl⟩
  split at hc
  case h_1 => cases hc
  case h_2 n hpn hn =>
    cases hc
    exact .inl ⟨rfl, rfl, hdown n hn⟩
  case h_3 p hp hnn =>
    cases hc
    exact .inr ⟨rfl, rfl, hup p hp⟩
  case h_4 p n hp hn =>
  split at hc
  case isTrue =>
    cases hc
    exact .inr ⟨rfl, rfl, hup p hp⟩
  case isFalse =>
    cases hc
    exact .inl ⟨rfl, rfl, hdown n hn⟩

/-- What there is below a stack that is to grow down to an address. -/
structure RoomBelow (m : Map) (c : Choice) (addr : Nat) : Prop where
  lt : addr < (m.entry c.entry).start
  paged : 4096 ∣ (m.entry c.entry).start
  top : (m.entry c.entry).start + 8192 ≤ 2 ^ 64
  le : m.growEnd c ≤ (m.entry c.entry).start
  room : m.maxGrow c = (m.entry c.entry).start - m.growEnd c
  neighbour : ∀ p, c.neighbour = some p → m.growEnd c = (m.entry p).stop ∧ 4096 ∣ m.growEnd c
  need : (m.entry c.entry).start - addr ≤ m.growNeed c addr
  needPaged : 4096 ∣ m.growNeed c addr
  needLt : m.growNeed c addr < (m.entry c.entry).start - addr + 4096

/-- What there is above a stack that is to grow up to an address. -/
structure RoomAbove (m : Map) (c : Choice) (addr : Nat) : Prop where
  ge : (m.entry c.entry).stop ≤ addr
  paged : 4096 ∣ (m.entry c.entry).stop
  le : (m.entry c.entry).stop ≤ m.growEnd c
  top : m.growEnd c < 2 ^ 64
  room : m.maxGrow c = m.growEnd c - (m.entry c.entry).stop
  neighbour : ∀ n, c.neighbour = some n → m.growEnd c = (m.entry n).start ∧ 4096 ∣ m.growEnd c
  need : addr + 1 - (m.entry c.entry).stop ≤ m.growNeed c addr
  needPaged : 4096 ∣ m.growNeed c addr
  needLt : m.growNeed c addr < addr + 1 - (m.entry c.entry).stop + 4096

theorem roomBelow (h : Wf m) (hs : StackWf m) (hlist : m.list = pre ++ c.entry :: post)
    (hpre : ∀ j ∈ pre, (m.entry j).stop ≤ addr) (hlt : addr < (m.entry c.entry).start)
    (hway : c.way = .down) (hneigh : c.neighbour = pre.getLast?)
    (hdown : (m.entry c.entry).eflags.growsDown = true) : RoomBelow m c addr := by
  have hi : c.entry ∈ m.list := by simp [hlist]
  have hpaged := hs.paged _ hi
  have hne := h.laid.nonempty _ hi
  have hhigh := h.laid.high _ hi
  have hmax := h.limit.2
  rw [pageSize] at hpaged
  have htop : (m.entry c.entry).start + 8192 ≤ 2 ^ 64 := by omega
  have hend : m.growEnd c ≤ (m.entry c.entry).start ∧
      ∀ p, c.neighbour = some p → m.growEnd c = (m.entry p).stop ∧ 4096 ∣ m.growEnd c := by
    rw [Map.growEnd, hway]
    cases hn : c.neighbour with
    | none =>
      have hle := hs.below _ hi hdown
      dsimp only
      rw [usub_eq hle (by omega)]
      exact ⟨Nat.sub_le _ _, nofun⟩
    | some p =>
      rw [hneigh] at hn
      have hp := List.mem_of_getLast? hn
      have hstop := hpre p hp
      refine ⟨hstop.trans hlt.le, fun q hq => ?_⟩
      cases hq
      exact ⟨rfl, (hs.paged p (by simp [hlist, hp])).2⟩
  have hneed : m.growNeed c addr = roundup ((m.entry c.entry).start - addr) pageSize := by
    rw [Map.growNeed, hway]
    dsimp only
    rw [usub_eq hlt.le (by omega)]
  have hround := roundup_page (x := (m.entry c.entry).start - addr) (by omega)
  rw [← hneed] at hround
  refine ⟨hlt, hpaged.1, htop, hend.1, ?_, hend.2, hround.1, hround.2.1, hround.2.2⟩
  rw [Map.maxGrow, hway]
  dsimp only
  rw [usub_eq hend.1 (by omega)]

theorem roomAbove (h : Wf m) (hs : StackWf m) (hlist : m.list = pre ++ c.entry :: post)
    (hge : (m.entry c.entry).stop ≤ addr) (hpost : ∀ j ∈ post, addr < (m.entry j).start)
    (haddr : addr < 2 ^ 64) (hway : c.way = .up) (hneigh : c.neighbour = post.head?)
    (hup : (m.entry c.entry).eflags.growsUp = true) : RoomAbove m c addr := by
  have hi : c.entry ∈ m.list := by simp [hlist]
  have hpaged := hs.paged _ hi
  have hne := h.laid.nonempty _ hi
  rw [pageSize] at hpaged
  have hend : (m.entry c.entry).stop ≤ m.growEnd c ∧ m.growEnd c < 2 ^ 64 ∧
      ∀ n, c.neighbour = some n → m.growEnd c = (m.entry n).start ∧ 4096 ∣ m.growEnd c := by
    rw [Map.growEnd, hway]
    cases hn : c.neighbour with
    | none =>
      have hlt := hs.above _ hi hup
      dsimp only
      rw [uadd_eq hlt]
      exact ⟨Nat.le_add_right _ _, hlt, nofun⟩
    | some n =>
      rw [hneigh] at hn
      have hn' := List.mem_of_mem_head? hn
      have hstart := hpost n hn'
      have hmem : n ∈ m.list := by simp [hlist, hn']
      have hnn := h.laid.nonempty n hmem
      have hhigh := h.laid.high n hmem
      have hmax := h.limit.2
      refine ⟨by dsimp only; omega, by dsimp only; omega, fun q hq => ?_⟩
      cases hq
      exact ⟨rfl, (hs.paged n hmem).1⟩
  have hsub : usub (uadd addr 1) (m.entry c.entry).stop = addr + 1 - (m.entry c.entry).stop := by
    rcases lt_or_ge (addr + 1) (2 ^ 64) with hlt | hwrap
    · rw [uadd_eq hlt, usub_eq (by omega) hlt]
    · rw [uadd_wrap haddr (by omega) hwrap, usub_wrap (by omega) (by omega)]
      omega
  have hneed : m.growNeed c addr = roundup (addr + 1 - (m.entry c.entry).stop) pageSize := by
    rw [Map.growNeed, hway]
    dsimp only
    rw [hsub]
  have hround := roundup_page (x := addr + 1 - (m.entry c.entry).stop) (by omega)
  rw [← hneed] at hround
  refine ⟨hge, hpaged.2, hend.1, hend.2.1, ?_, hend.2.2, hround.1, hround.2.1, hround.2.2⟩
  rw [Map.maxGrow, hway]
  dsimp only
  rw [usub_eq hend.1 hend.2.1]

end choice

/-! ## When a growth is as it should be -/

/-- The entries of a stack after it has grown. -/
def Choice.members (c : Choice) (m : Map) (stack : List Nat) : List Nat :=
  match c.way with
  | .down => m.fresh :: stack
  | .up => stack

/-- What is asked of a growth from `lo` to `hi`: it is of whole pages, contains the
    address, meets no entry, keeps away from the neighbour by the guard page, and
    whatever limit the stack kept to before, it keeps to after. -/
structure GrownWell (m m' : Map) (g : Limits) (c : Choice) (stack : List Nat)
    (addr lo hi : Nat) : Prop where
  paged : pageSize ∣ lo ∧ pageSize ∣ hi
  contains : lo ≤ addr ∧ addr < hi
  free : ∀ i ∈ m.list, (m.entry i).stop ≤ lo ∨ hi ≤ (m.entry i).start
  guard : g.stackGuardPage = true → ∀ n, c.neighbour = some n →
    (m.entry n).stop + pageSize ≤ lo ∨ hi + pageSize ≤ (m.entry n).start
  bound : ∀ maxSsize, stackUse m stack ≤ maxSsize → stackUse m' (c.members m stack) ≤ maxSsize

/-- When a growth by an amount is as it should be: either the amount is more than the
    room, so that growing is cut back, or it is whole pages, enough and in the reserve,
    and leaves room for the guard page. A stack that grows both ways must not grow
    down, unless it is cut back to no more than half its reserve. -/
def GrowsWell (m : Map) (g : Limits) (c : Choice) (addr amount : Nat) : Prop :=
  let e := m.entry c.entry
  let room := m.maxGrow c
  let bothWays := c.way = .down ∧ e.eflags.growsUp = true
  if room < amount then
    pageSize ∣ room ∧ room ≤ e.availSsize ∧ (bothWays → 2 * room ≤ e.availSsize) ∧
      (c.way = .up → e.stop + amount < 2 ^ 64)
  else
    pageSize ∣ amount ∧ m.growNeed c addr ≤ amount ∧ amount ≤ e.availSsize ∧ ¬bothWays ∧
      (g.stackGuardPage = true → c.neighbour.isSome → amount + pageSize ≤ room)

section well

variable {m m' : Map} {pre post stack : List Nat} {g : Limits} {c : Choice}
  {addr amount lo hi r : Nat}

/-- When one entry of a stack changes, the use of the stack changes by as much. -/
theorem stackUse_change {i : Nat} (hnodup : stack.Nodup) (hi : i ∈ stack)
    (hother : ∀ j ∈ stack, j ≠ i → m'.entry j = m.entry j) :
    stackUse m' stack + (m.entry i).use = stackUse m stack + (m'.entry i).use := by
  rcases List.append_of_mem hi with ⟨l₁, l₂, rfl⟩
  have hnot := notMem_rest hnodup
  have hsame : ∀ l : List Nat, (∀ j ∈ l, j ∈ l₁ ++ l₂) → stackUse m' l = stackUse m l := by
    intro l hl
    rw [stackUse, stackUse]
    congr 1
    refine List.map_congr_left fun j hj => ?_
    have hmem := hl j hj
    rw [hother j (by
      rcases List.mem_append.mp hmem with h | h
      · exact List.mem_append_left _ h
      · exact List.mem_append_right _ (List.mem_cons_of_mem i h))]
    rintro rfl
    exact hnot hmem
  have h₁ := hsame l₁ fun j hj => List.mem_append_left _ hj
  have h₂ := hsame l₂ fun j hj => List.mem_append_right _ hj
  simp only [stackUse, List.map_append, List.map_cons, List.sum_append, List.sum_cons] at h₁ h₂ ⊢
  omega

/-- What a stack that has grown down uses. -/
theorem GrewDown.use (hg : GrewDown m m' pre c.entry post lo r) (h : Wf m) (hnodup : stack.Nodup)
    (hsub : ∀ j ∈ stack, j ∈ m.list) (hi : c.entry ∈ stack)
    (hdown : (m.entry c.entry).eflags.growsDown = true) :
    stackUse m' (m.fresh :: stack) + (m.entry c.entry).availSsize = stackUse m stack
      + ((m.entry c.entry).start - lo) + usub r (usub (m.entry c.entry).start lo)
      + if (m.entry c.entry).eflags.growsUp then r else 0 := by
  have hother : ∀ j ∈ stack, j ≠ c.entry → m'.entry j = m.entry j := fun j hj hji =>
    hg.other j hji (h.tree.fresh j (hsub j hj)).ne
  have hch := stackUse_change hnodup hi hother
  have hres : (m.entry c.entry).reserve = (m.entry c.entry).availSsize := by
    rw [Entry.reserve, hdown, Bool.true_or, if_pos rfl]
  have hcons : stackUse m' (m.fresh :: stack) = (m'.entry m.fresh).use + stackUse m' stack := rfl
  simp only [Entry.use, hg.selfStart, hg.selfStop, hg.selfReserve, hres] at hch
  rw [hcons, Entry.use, hg.newStart, hg.newStop, hg.newReserve]
  omega

/-- What a stack that has grown up uses. -/
theorem GrewUp.use (hg : GrewUp m m' c.entry hi r) (hnodup : stack.Nodup)
    (hi' : c.entry ∈ stack) (hup : (m.entry c.entry).eflags.growsUp = true) :
    stackUse m' stack + ((m.entry c.entry).stop - (m.entry c.entry).start)
        + (m.entry c.entry).availSsize
      = stackUse m stack + (hi - (m.entry c.entry).start)
        + usub r (usub hi (m.entry c.entry).stop) := by
  have hother : ∀ j ∈ stack, j ≠ c.entry → m'.entry j = m.entry j := fun j _ hji => hg.other j hji
  have hch := stackUse_change hnodup hi' hother
  have hres : (m.entry c.entry).reserve = (m.entry c.entry).availSsize := by
    rw [Entry.reserve, hup, Bool.or_true, if_pos rfl]
  simp only [Entry.use, hg.selfStart, hg.selfStop, hg.selfReserve, hres, hup, Bool.or_true,
    if_true] at hch
  omega

theorem guard_eq (g : Limits) :
    g.guard = 0 ∧ g.stackGuardPage = false ∨ g.guard = 4096 ∧ g.stackGuardPage = true := by
  rw [Limits.guard]
  cases g.stackGuardPage with
  | false => exact .inl ⟨rfl, rfl⟩
  | true => exact .inr ⟨rfl, rfl⟩

/-- A limit is kept by whatever is kept below the use before. -/
theorem bound_iff {a b : Nat} : (∀ max, b ≤ max → a ≤ max) ↔ a ≤ b :=
  ⟨fun h => h b (le_refl b), fun h _ hb => h.trans hb⟩

/-- What is asked of a growth by `d` out of a reserve `r`, in terms of the amount that it
    comes from: either it is cut back to the room but the guard page, or it fits. -/
theorem grows_iff {room least gd d : Nat} {guard : Bool} (near both : Bool)
    (hd : d = if room < amount then room - gd else amount)
    (hr : r = if room < amount then room else avail)
    (hgd : gd = 0 ∧ guard = false ∨ gd = 4096 ∧ guard = true) (hmax : need + gd ≤ room)
    (hroom : room < 2 ^ 64) (hleast : 0 < least) (hneed : least ≤ need) (hpaged : 4096 ∣ need)
    (hlt : need < least + 4096) (ha : avail < 2 ^ 64) (hamount : amount < 2 ^ 64) :
    (4096 ∣ d ∧ least ≤ d ∧ (guard = true → near = true → d + 4096 ≤ room) ∧
        d + usub r d + (if both = true then r else 0) ≤ avail) ↔
      if room < amount then 4096 ∣ room ∧ room ≤ avail ∧ (both = true → 2 * room ≤ avail)
      else 4096 ∣ amount ∧ need ≤ amount ∧ amount ≤ avail ∧ both = false ∧
        (guard = true → near = true → amount + 4096 ≤ room) := by
  subst hd hr
  by_cases hcut : room < amount
  · -- Growing is cut back: the guard page is left, and all but it is mapped.
    simp only [if_pos hcut]
    rw [usub_eq (Nat.sub_le _ _) hroom]
    rcases hgd with ⟨rfl, rfl⟩ | ⟨rfl, rfl⟩ <;> cases both <;> simp <;> omega
  -- The amount fits in the room, whether or not a page is left of it.
  simp only [if_neg hcut]
  constructor
  · rintro ⟨hp, hle, hfar, huse⟩
    have hfits : amount ≤ avail := by
      by_contra hgt
      rw [usub_wrap (by omega) hamount] at huse
      omega
    rw [usub_eq hfits ha] at huse
    refine ⟨hp, by omega, hfits, ?_, hfar⟩
    cases both with
    | false => rfl
    | true =>
      rw [if_pos rfl] at huse
      omega
  rintro ⟨hp, hle, hfits, rfl, hfar⟩
  rw [usub_eq hfits ha, if_neg Bool.false_ne_true]
  exact ⟨hp, by omega, hfar, by omega⟩

/-- What is asked of a growth by `d`, one end of which lies fixed, in terms of `d`. -/
theorem grownWell_iff {d least room use : Nat}
    (hpaged : pageSize ∣ lo ∧ pageSize ∣ hi ↔ 4096 ∣ d)
    (hcontains : lo ≤ addr ∧ addr < hi ↔ least ≤ d)
    (hfree : ∀ i ∈ m.list, (m.entry i).stop ≤ lo ∨ hi ≤ (m.entry i).start)
    (hguard : ∀ n, c.neighbour = some n → ((m.entry n).stop + pageSize ≤ lo ∨
      hi + pageSize ≤ (m.entry n).start ↔ d + 4096 ≤ room))
    (hbound : stackUse m' (c.members m stack) ≤ stackUse m stack ↔ d + use ≤ avail) :
    GrownWell m m' g c stack addr lo hi ↔ 4096 ∣ d ∧ least ≤ d ∧
      (g.stackGuardPage = true → c.neighbour.isSome = true → d + 4096 ≤ room) ∧ d + use ≤ avail := by
  rw [← hpaged, ← hcontains, ← bound_iff.trans hbound]
  constructor
  · intro hw
    refine ⟨hw.paged, hw.contains, fun hg hsome => ?_, hw.bound⟩
    rcases Option.isSome_iff_exists.mp hsome with ⟨n, hn⟩
    exact (hguard n hn).mp (hw.guard hg n hn)
  · rintro ⟨hp, hc, hg, hb⟩
    exact ⟨hp, hc, hfree, fun hg' n hn => (hguard n hn).mpr (hg hg' (by rw [hn]; rfl)), hb⟩

/-- How far a stack grows down, and out of which reserve. -/
theorem growEdge_down (hr : RoomBelow m c addr) (hway : c.way = .down) (hamount : amount < 2 ^ 64)
    (hmax : m.growNeed c addr + g.guard ≤ m.maxGrow c)
    (hlt : m.growEdge g c amount < (m.entry c.entry).start) :
    m.growEdge g c amount = (if m.maxGrow c < amount then
        m.growEnd c + g.guard
        else (m.entry c.entry).start - amount) ∧ amount ≤ (m.entry c.entry).start ∧
      m.growReserve c amount
        = if m.maxGrow c < amount then m.maxGrow c else (m.entry c.entry).availSsize := by
  have hcut : m.cutBack c amount = decide (usub (m.entry c.entry).start amount < m.growEnd c) := by
    rw [Map.cutBack, hway]
  have hedge : m.growEdge g c amount = if m.cutBack c amount then
      uadd (m.growEnd c) g.guard
      else usub (m.entry c.entry).start amount := by
    rw [Map.growEdge, hway]
  have hroom := hr.room
  have hle := hr.le
  have htop := hr.top
  -- Growing below address zero would leave no range to insert.
  have hfits : amount ≤ (m.entry c.entry).start := by
    by_contra hgt
    have hwrap := usub_wrap (a := (m.entry c.entry).start) (b := amount) (by omega) hamount
    have hno : m.cutBack c amount = false := by
      rw [hcut, hwrap]
      exact decide_eq_false (by omega)
    rw [hedge, hno, if_neg (by simp), hwrap] at hlt
    omega
  have hsub := usub_eq hfits (by omega)
  have hiff : m.cutBack c amount = decide (m.maxGrow c < amount) := by
    rw [hcut, hsub, hroom]
    exact decide_eq_decide.mpr (by omega)
  refine ⟨?_, hfits, ?_⟩
  · rw [hedge, hiff, hsub]
    simp only [decide_eq_true_eq]
    rw [uadd_eq (by omega)]
  · rw [Map.growReserve, hiff]
    simp only [decide_eq_true_eq]

theorem down_well_iff (h : Wf m) (hlist : m.list = pre ++ c.entry :: post)
    (hr : RoomBelow m c addr) (hway : c.way = .down) (hneigh : c.neighbour = pre.getLast?)
    (hdown : (m.entry c.entry).eflags.growsDown = true) (hamount : amount < 2 ^ 64)
    (hav : (m.entry c.entry).availSsize < 2 ^ 64)
    (hmax : m.growNeed c addr + g.guard ≤ m.maxGrow c)
    (hnodup : stack.Nodup) (hsub : ∀ j ∈ stack, j ∈ m.list) (hi : c.entry ∈ stack)
    (hg : GrewDown m m' pre c.entry post (m.growEdge g c amount) (m.growReserve c amount)) :
    GrownWell m m' g c stack addr (m.growEdge g c amount) (m.entry c.entry).start ↔
      GrowsWell m g c addr amount := by
  have huse := hg.use h hnodup hsub hi hdown
  have hlt := hg.lt
  rcases growEdge_down hr hway hamount hmax hlt with ⟨hedge, hfits, hres⟩
  have hmembers : c.members m stack = m.fresh :: stack := by rw [Choice.members, hway]
  have hfree : ∀ j ∈ m.list, (m.entry j).stop ≤ m.growEdge g c amount ∨
      (m.entry c.entry).start ≤ (m.entry j).start := by
    intro j hj
    rw [hlist, List.mem_append] at hj
    rcases hj with hj | hj
    · exact .inl (hg.before j hj)
    · exact .inr (h.laid.behind_of_split hlist (le_refl _) j hj)
  rw [usub_eq hlt.le (by have := hr.top; omega)] at huse
  have hroom := hr.room
  have hle := hr.le
  have htop := hr.top
  have hgd := guard_eq g
  have hpaged := hr.paged
  have hnear := hr.lt
  have hd : (m.entry c.entry).start - m.growEdge g c amount =
      if m.maxGrow c < amount then m.maxGrow c - g.guard else amount := by
    rw [hedge]
    split <;> omega
  have hiff := grows_iff c.neighbour.isSome (m.entry c.entry).eflags.growsUp
    hd hres hgd hmax (by omega) (Nat.sub_pos_of_lt hnear) hr.need hr.needPaged hr.needLt hav hamount
  have hwell : GrownWell m m' g c stack addr (m.growEdge g c amount) (m.entry c.entry).start ↔ _ :=
    Iff.trans ?_ hiff
  · rw [hwell, GrowsWell]
    simp [hway, pageSize]
  clear hd hres hedge hiff hfits
  simp only [Nat.add_assoc]
  refine grownWell_iff (by rw [pageSize]; omega) (by omega) hfree (fun n hn => ?_)
    (by rw [hmembers]; omega)
  have hend := (hr.neighbour n hn).1
  have hmem : n ∈ m.list := by
    rw [hneigh] at hn
    simp [hlist, List.mem_of_getLast? hn]
  have hne := h.laid.nonempty n hmem
  rw [pageSize]
  omega

/-- How far a stack grows up, and out of which reserve. -/
theorem growEdge_up (hr : RoomAbove m c addr) (hway : c.way = .up) (hamount : amount < 2 ^ 64)
    (hmax : m.growNeed c addr + g.guard ≤ m.maxGrow c) :
    (2 ^ 64 ≤ (m.entry c.entry).stop + amount ∧ m.growEdge g c amount < (m.entry c.entry).stop) ∨
    ((m.entry c.entry).stop + amount < 2 ^ 64 ∧
      m.growEdge g c amount = (if m.maxGrow c < amount then
        m.growEnd c - g.guard
        else (m.entry c.entry).stop + amount) ∧
      m.growReserve c amount
        = if m.maxGrow c < amount then m.maxGrow c else (m.entry c.entry).availSsize) := by
  have hcut : m.cutBack c amount = decide (m.growEnd c < uadd (m.entry c.entry).stop amount) := by
    rw [Map.cutBack, hway]
  have hedge : m.growEdge g c amount = if m.cutBack c amount then
      usub (m.growEnd c) g.guard
      else uadd (m.entry c.entry).stop amount := by
    rw [Map.growEdge, hway]
  have hroom := hr.room
  have hle := hr.le
  have htop := hr.top
  rcases lt_or_ge ((m.entry c.entry).stop + amount) (2 ^ 64) with hfits | hwrap
  · have hadd := uadd_eq hfits
    have hiff : m.cutBack c amount = decide (m.maxGrow c < amount) := by
      rw [hcut, hadd, hroom]
      exact decide_eq_decide.mpr (by omega)
    refine .inr ⟨hfits, ?_, ?_⟩
    · rw [hedge, hiff, hadd]
      simp only [decide_eq_true_eq]
      rw [usub_eq (by omega) htop]
    · rw [Map.growReserve, hiff]
      simp only [decide_eq_true_eq]
  -- The sum wraps around to an address below the stack.
  have hadd := uadd_wrap (by omega) hamount hwrap
  have hno : m.cutBack c amount = false := by
    rw [hcut, hadd]
    exact decide_eq_false (by omega)
  refine .inl ⟨hwrap, ?_⟩
  rw [hedge, hno, if_neg (by simp), hadd]
  omega

theorem up_well_iff (h : Wf m) (hlist : m.list = pre ++ c.entry :: post)
    (hr : RoomAbove m c addr) (hway : c.way = .up) (hneigh : c.neighbour = post.head?)
    (hup : (m.entry c.entry).eflags.growsUp = true) (hamount : amount < 2 ^ 64)
    (hav : (m.entry c.entry).availSsize < 2 ^ 64)
    (hmax : m.growNeed c addr + g.guard ≤ m.maxGrow c)
    (hnodup : stack.Nodup) (hi : c.entry ∈ stack)
    (hg : GrewUp m m' c.entry (m.growEdge g c amount) (m.growReserve c amount)) :
    GrownWell m m' g c stack addr (m.entry c.entry).stop (m.growEdge g c amount) ↔
      GrowsWell m g c addr amount := by
  have huse := hg.use hnodup hi hup
  have hge := hr.ge
  have hroom := hr.room
  have hle := hr.le
  have htop := hr.top
  have hpaged := hr.paged
  have hmembers : c.members m stack = stack := by rw [Choice.members, hway]
  rcases growEdge_up (g := g) hr hway hamount hmax with ⟨hwrap, hbelow⟩ | ⟨hfits, hedge, hres⟩
  · -- Neither side holds when the sum wraps around.
    constructor
    · intro hw
      have := hw.contains.2
      omega
    intro hw
    rw [GrowsWell] at hw
    split at hw
    case isTrue =>
      have := hw.2.2.2 hway
      omega
    case isFalse => omega
  have hgd := guard_eq g
  have hneed := hr.need
  have hstop : (m.entry c.entry).stop ≤ m.growEdge g c amount ∧
      m.growEdge g c amount ≤ m.growEnd c := by
    rw [hedge]
    split <;> omega
  rw [usub_eq hstop.1 (hstop.2.trans_lt htop)] at huse
  have hne := h.laid.nonempty c.entry (by simp [hlist])
  have hfree : ∀ j ∈ m.list, (m.entry j).stop ≤ (m.entry c.entry).stop ∨
      m.growEdge g c amount ≤ (m.entry j).start := by
    intro j hj
    rw [hlist, List.mem_append, List.mem_cons] at hj
    rcases hj with hj | hj | hj
    · have := (h.laid.around hlist).1 j hj
      omega
    · rw [hj]
      exact .inl (le_refl _)
    cases post with
    | nil => cases hj
    | cons n post =>
      have hend := (hr.neighbour n hneigh).1
      have hlist' : m.list = (pre ++ [c.entry]) ++ n :: post := by simpa using hlist
      have := h.laid.behind_of_split hlist' (le_refl _) j hj
      omega
  have hd : m.growEdge g c amount - (m.entry c.entry).stop =
      if m.maxGrow c < amount then m.maxGrow c - g.guard else amount := by
    rw [hedge]
    split <;> omega
  have hiff := grows_iff c.neighbour.isSome false hd hres hgd hmax (by omega)
    (by omega) hneed hr.needPaged hr.needLt hav hamount
  have hwell : GrownWell m m' g c stack addr (m.entry c.entry).stop (m.growEdge g c amount) ↔ _ :=
    Iff.trans ?_ hiff
  · rw [hwell, GrowsWell]
    have hfits' : (m.entry c.entry).stop + amount < 18446744073709551616 := hfits
    simp [hway, pageSize, hfits']
  clear hd hres hedge hiff hfits
  rw [if_neg Bool.false_ne_true]
  simp only [Nat.add_assoc]
  refine grownWell_iff (by rw [pageSize]; omega) (by omega) hfree (fun n hn => ?_)
    (by rw [hmembers]; omega)
  have hend := (hr.neighbour n hn).1
  have hmem : n ∈ m.list := by
    rw [hneigh] at hn
    simp [hlist, List.mem_of_mem_head? hn]
  have hnn := h.laid.nonempty n hmem
  rw [pageSize]
  omega

end well

/-- The range a call has grown a stack by. -/
structure Grew (m m' : Map) (c : Choice) (lo hi : Nat) : Prop where
  down : c.way = .down → m.fresh ∈ m'.list ∧ (m'.entry m.fresh).start = lo ∧
    (m'.entry m.fresh).stop = hi ∧ hi = (m.entry c.entry).start
  up : c.way = .up → m'.list = m.list ∧ (m'.entry c.entry).start = (m.entry c.entry).start ∧
    (m'.entry c.entry).stop = hi ∧ lo = (m.entry c.entry).stop

theorem growAmount_lt {v : Vmspace} {g : Limits} (ha : avail < 2 ^ 64) :
    v.growAmount g addr avail need < 2 ^ 64 := by
  have hcap : (if avail < roundup need g.sgrowsiz then avail else roundup need g.sgrowsiz)
      < 2 ^ 64 := by
    split
    case isTrue => exact ha
    case isFalse => omega
  rw [Vmspace.growAmount]
  generalize (if avail < roundup need g.sgrowsiz then avail else roundup need g.sgrowsiz) = amount
    at hcap ⊢
  split
  case isTrue => exact usub_lt _ _
  case isFalse => exact hcap

/-- The stack that is next to an address and grows towards it. -/
def Map.stackFor (m : Map) (mayWrite : Bool) (addr : Nat) : Option Choice :=
  match m.lookupEntry mayWrite addr with
  | (_, true, _) => none
  | (m, false, prev) => m.growChoice addr prev

/-- A call that grows a stack has found what is needed in the reserve and, with the
    guard page, in the room. -/
theorem growstack_grew {v v' : Vmspace} {g : Limits} {lo hi : Nat} {c : Choice} (h : Wf v.map)
    (hc : v.map.stackFor g.mayWrite addr = some c)
    (hgrow : v.growstack g addr = some (.success, v', some (lo, hi))) :
    ∃ t pre post, Wf { v.map with root := t } ∧ v.map.list = pre ++ post ∧
      (∀ j ∈ pre, (v.map.entry j).stop ≤ addr) ∧ (∀ j ∈ post, addr < (v.map.entry j).start) ∧
      v.map.growChoice addr pre.getLast? = some c ∧
      v.map.growNeed c addr ≤ (v.map.entry c.entry).availSsize ∧
      uadd (v.map.growNeed c addr) g.guard ≤ v.map.maxGrow c ∧
      Vmspace.growBy { v with map := { v.map with root := t } } g addr c
        (v.growAmount g addr (v.map.entry c.entry).availSsize (v.map.growNeed c addr))
        = some (.success, v', some (lo, hi)) := by
  rcases lookup_spec h g.mayWrite addr with ⟨t, b, e, heq, hwf, hans⟩
  rw [Map.stackFor, heq] at hc
  rw [Vmspace.growstack, heq] at hgrow
  cases hans with
  | hit => cases hc
  | miss pre post hlist hpre hpost =>
    dsimp only at hc hgrow
    rw [hc] at hgrow
    dsimp only at hgrow
    split at hgrow
    case isTrue => cases hgrow
    case isFalse hneed =>
    split at hgrow
    case isTrue => cases hgrow
    case isFalse hmax =>
    split at hgrow
    case isTrue => cases hgrow
    case isFalse =>
    split at hgrow
    case isTrue => cases hgrow
    case isFalse =>
    split at hgrow
    case isTrue => cases hgrow
    case isFalse =>
      exact ⟨t, pre, post, hwf, hlist, hpre, hpost, hc, not_lt.mp hneed,
        not_lt.mp hmax, hgrow⟩

/-- When a stack grows, the growth is as it should be exactly when the amount that is
    needed, rounded up and cut down, is cut back at the neighbour or leaves room for
    the guard page, and the stack does not grow both ways. -/
theorem growstack_well_iff (v v' : Vmspace) (h : Wf v.map) (hs : StackWf v.map) (g : Limits)
    (addr : Nat) (haddr : addr < 2 ^ 64) (c : Choice)
    (hc : v.map.stackFor g.mayWrite addr = some c) (stack : List Nat) (hnodup : stack.Nodup)
    (hsub : ∀ j ∈ stack, j ∈ v.map.list) (hi : c.entry ∈ stack) (lo hi : Nat)
    (hgrow : v.growstack g addr = some (.success, v', some (lo, hi))) : Grew v.map v'.map c lo hi ∧
      (GrownWell v.map v'.map g c stack addr lo hi ↔ GrowsWell v.map g c addr
        (v.growAmount g addr (v.map.entry c.entry).availSsize (v.map.growNeed c addr))) := by
  rcases growstack_grew h hc hgrow with
    ⟨t, pre, post, hwf, hlist, hpre, hpost, hchoice, hneed, hmax, hby⟩
  set amount := v.growAmount g addr (v.map.entry c.entry).availSsize (v.map.growNeed c addr)
  set m : Map := ({ v.map with root := t } : Map).lock
  have hlist' : m.list = pre ++ post := hlist
  rw [Vmspace.growBy] at hby
  rcases Option.map_eq_some_iff.mp hby with ⟨⟨rv, m'⟩, hgrown, hret⟩
  dsimp only at hgrown hret
  split at hret
  case isFalse => cases hret
  case isTrue hrv =>
  rcases growChoice_spec h hlist hchoice with
    ⟨hway, hneigh, hdown, post', rfl⟩ | ⟨hway, hneigh, hup, pre', rfl⟩
  · have hr := roomBelow h hs hlist hpre (hpost _ (by simp)) hway hneigh hdown
    rw [hway] at hgrown hret
    simp only [Option.some.injEq, Prod.mk.injEq] at hret
    rcases hret with ⟨-, rfl, rfl, rfl⟩
    rw [hrv] at hgrown
    have hg₀ := growDown_spec hwf.lock hlist' hneigh hgrown
    -- Locking the map and splaying its tree change nothing the growth depends on.
    have hg : GrewDown v.map m' pre c.entry post' (v.map.growEdge g c amount)
        (v.map.growReserve c amount) :=
      ⟨hg₀.list, hg₀.lt, hg₀.before, hg₀.newStart, hg₀.newStop, hg₀.newReserve, hg₀.selfStart,
        hg₀.selfStop, hg₀.selfReserve, hg₀.other⟩
    have hmem : c.entry ∈ v.map.list := by simp [hlist]
    have hav : (v.map.entry c.entry).availSsize < 2 ^ 64 := by
      have := hs.below _ hmem hdown
      have := hr.top
      omega
    have hmax' : v.map.growNeed c addr + g.guard ≤ v.map.maxGrow c := by
      have h₁ := hr.needLt
      have h₂ := hr.needPaged
      have h₃ := hr.top
      have h₄ := hr.paged
      have hgd := guard_eq g
      rwa [uadd_eq (by omega)] at hmax
    refine ⟨⟨fun _ => ⟨?_, hg.newStart, hg.newStop, rfl⟩, fun hup => ?_⟩,
      down_well_iff h hlist hr hway hneigh hdown (growAmount_lt hav) hav hmax' hnodup hsub hi
        hg⟩
    · rw [hg.list]
      simp
    · rw [hway] at hup
      cases hup
  · have hlist₁ : v.map.list = pre' ++ c.entry :: post := by simpa using hlist
    have hr := roomAbove h hs hlist₁ (hpre _ (by simp)) hpost haddr hway hneigh hup
    rw [hway] at hgrown hret
    simp only [Option.some.injEq, Prod.mk.injEq] at hret
    rcases hret with ⟨-, rfl, rfl, rfl⟩
    rw [hrv] at hgrown
    have hg₀ := growUp_spec (Option.some.inj hgrown)
    have hg : GrewUp v.map m' c.entry (v.map.growEdge g c amount) (v.map.growReserve c amount) :=
      ⟨hg₀.list, hg₀.selfStart, hg₀.selfStop, hg₀.selfReserve, hg₀.other⟩
    have hmem : c.entry ∈ v.map.list := by simp [hlist₁]
    have habove := hs.above _ hmem hup
    have hmax' : v.map.growNeed c addr + g.guard ≤ v.map.maxGrow c := by
      have h₁ := hr.paged
      have h₂ := h.laid.nonempty _ hmem
      have hgd := guard_eq g
      rwa [uadd_eq (by omega)] at hmax
    refine ⟨⟨fun hdown => ?_, fun _ => ⟨hg.list, hg.selfStart, hg.selfStop, rfl⟩⟩,
      up_well_iff h hlist₁ hr hway hneigh hup (growAmount_lt (by omega)) (by omega) hmax' hnodup hi
        hg⟩
    rw [hway] at hdown
    cases hdown

/-- A map with a page and, 32 pages above it, a stack of one page that may grow by 33
    more. -/
def stackMap : Map where
  entry i := if i = 0 then { start := 8192, stop := 12288, protection := 3, maxProtection := 7 }
    else { start := 143360, stop := 147456, availSsize := 135168, eflags := { growsDown := true },
           protection := 3, maxProtection := 7 }
  adjFree i := if i = 0 then 131072 else 901120
  list := [0, 1]
  root := .node .nil 0 901120 (.node .nil 1 901120 .nil)
  nentries := 2
  size := 8192
  minOffset := 4096
  maxOffset := 1048576
  systemMap := false
  kernelPmap := false
  timestamp := 0
  wired _ := false
  fresh := 2
  obj _ := { size := 0 }
  freshObj := 0

theorem stackMap_wf : Wf stackMap where
  tree := ⟨by decide, rfl, ⟨rfl, trivial, rfl, trivial, trivial⟩, rfl, by decide⟩
  laid := ⟨by decide, by decide, by decide, by decide⟩
  gaps := by
    show ∀ i ∈ [0, 1], stackMap.adjFree i = stackMap.nextStart i - (stackMap.entry i).stop
    decide
  size := rfl
  limit := by decide

theorem stackMap_stackWf : StackWf stackMap where
  paged := by decide
  below := by decide
  above := by decide

def stackSpace : Vmspace where
  map := stackMap
  ssize := 0
  maxsaddr := 2 ^ 47

/-- Settings with a guard page and without limits. -/
def guarded (sgrowsiz : Nat) : Limits where
  env := plainEnv
  stackGuardPage := true
  sgrowsiz := sgrowsiz
  usrstack := 2 ^ 47
  lmemlim := 2 ^ 63 - 1
  stacklim := 2 ^ 63 - 1
  vmemlim := 2 ^ 63 - 1
  oldMlock := false
  wireFuture := false
  wiredCount := 0
  racctStack _ := false
  racctMemlock _ := false
  racctVmem _ := false
  swapReserveByCred _ _ := true
  mayWrite := false

/-- A call that returns a range returns it with some map. -/
theorem growstack_some (v : Vmspace) (g : Limits) (addr lo hi : Nat)
    (h : (v.growstack g addr).map (fun r => (r.1, r.2.2)) = some (.success, some (lo, hi))) :
    ∃ v', v.growstack g addr = some (.success, v', some (lo, hi)) := by
  rcases Option.map_eq_some_iff.mp h with ⟨⟨rv, v', range⟩, hgrow, heq⟩
  cases heq
  exact ⟨v', hgrow⟩

/-- The 32 pages a growth is rounded up to are just the room: the stack grows up to
    the page below it, and no guard page is left. -/
theorem growstack_no_guard_page : Wf stackMap ∧ StackWf stackMap ∧
    ∃ v', stackSpace.growstack (guarded 131072) 143359 = some (.success, v', some (12288, 143360)) ∧
      ¬GrownWell stackMap v'.map (guarded 131072) ⟨.down, 1, some 0⟩ [1] 143359 12288 143360 := by
  rcases growstack_some stackSpace (guarded 131072) 143359 12288 143360 (by decide)
    with ⟨v', hgrow⟩
  refine ⟨stackMap_wf, stackMap_stackWf, v', hgrow, fun hw => ?_⟩
  have hguard := hw.guard rfl 0 rfl
  revert hguard
  decide

/-- Rounded up to 16 pages instead, a growth leaves 16 pages. -/
theorem growstack_well_iff_sample :
    ∃ v', stackSpace.growstack (guarded 65536) 143359 = some (.success, v', some (77824, 143360)) ∧
      GrownWell stackMap v'.map (guarded 65536) ⟨.down, 1, some 0⟩ [1] 143359 77824 143360 := by
  rcases growstack_some stackSpace (guarded 65536) 143359 77824 143360 (by decide)
    with ⟨v', hgrow⟩
  refine ⟨v', hgrow, (growstack_well_iff stackSpace v' stackMap_wf stackMap_stackWf (guarded 65536)
    143359 (by decide) ⟨.down, 1, some 0⟩ (by decide) [1] (by decide) (by decide)
    (by decide) 77824 143360 hgrow).2.mpr ?_⟩
  rw [GrowsWell, if_neg (by decide)]
  exact ⟨by decide, by decide, by decide, by decide, fun _ _ => by decide⟩

end FreeBSDKern.VmMap
