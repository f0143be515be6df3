import FreeBSDKern.VmMap.WireWalk

/-!
# Wiring Is Undone

When `vm_map_wire` fails, every address is wired as it was before, the pages too.
Its second walk has only the entries to go by, and each tells it enough: one that
was skipped is flagged, one whose pages could not be wired has the count `-1`, one
that the user had wired before and the user was wiring again was left alone, and
of the others a count of one means that the pages were wired for this call.

After a system wiring, `vm_map_unwire` counts down what was counted up, but it
does not know of the entries that were skipped, and where one of them is not wired
otherwise it refuses. An entry can be skipped only when holes are allowed.

## Main definitions

* `Ready`: A map no thread is wiring.
* `WireMark`: What the first walk does to an address.
* `wireContract`, `unwireContract`: What the two calls keep to.

## Theorems

* `faultLoop_spec`, `wireTurn_ok`, `wireSettle_ok`: The parts of `vm_map_wire`.
* `vm_map_wire_failure_is_atomic`: A failure changes nothing, and a success can be
  undone.
-/

namespace FreeBSDKern.VmMap

open Lib

/-- Wiring counts are not negative, the user's wiring is counted, and only pages of
    wired entries are wired. -/
structure Sound (x : Wiring) (w : Bool) : Prop where
  nonneg : 0 ≤ x.count
  user : x.user = true → 1 ≤ x.count
  pages : x.count = 0 → w = false

/-- A map of whole pages in which no thread is wiring. -/
structure Ready (m : Map) : Prop where
  aligned : ∀ i ∈ m.list, Aligned (m.entry i)
  minOffset : pageSize ∣ m.minOffset
  maxOffset : pageSize ∣ m.maxOffset
  quiet : ∀ i ∈ m.list, Unmarked (m.entry i)
  sound : ∀ a x, m.wiring a = some x → Sound x (m.wired a)

/-- The accesses that wiring asks for are allowed. -/
def WireFlags.Permits (flags : WireFlags) (p : Prot) : Prop :=
  p.grants (protRead ||| protExecute) = true ∧ p &&& flags.prot = flags.prot

/-! ## Faulting the pages of an entry in -/

/-- A map in which an entry has been given other backing. -/
structure Faulted (m m' : Map) (i : Nat) : Prop where
  turned : Turned m m' i
  wiring : (m'.entry i).wiring = (m.entry i).wiring
  inTransition : (m'.entry i).eflags.inTransition = (m.entry i).eflags.inTransition
  wireSkipped : (m'.entry i).eflags.wireSkipped = (m.entry i).eflags.wireSkipped
  wiringThread : (m'.entry i).wiringThread = (m.entry i).wiringThread

section fault

variable {m m' m'' : Map} {i : Nat} {fault : Map → Nat → Kern × Touch}

theorem Faulted.trans (h : Faulted m m' i) (h' : Faulted m' m'' i) : Faulted m m'' i :=
  ⟨h.turned.trans h'.turned, h'.wiring.trans h.wiring, h'.inTransition.trans h.inTransition,
    h'.wireSkipped.trans h.wireSkipped, h'.wiringThread.trans h.wiringThread⟩

/-- A fault touches the entry it is in, and wires nothing yet. -/
theorem faulted_spec (h : Wf m) (hi : i ∈ m.list) {faddr : Nat}
    (ha : (m.entry i).start ≤ faddr ∧ faddr < (m.entry i).stop) (t : Touch) :
    Faulted m (m.faulted faddr t) i ∧ (m.faulted faddr t).wired = m.wired := by
  rcases lookup_spec h t.splayed faddr with ⟨r, b, e, heq, hwf, hans⟩
  rcases List.append_of_mem hi with ⟨pre, post, hlist⟩
  have hhit := hans.unique h.laid (.hit pre i post hlist ha.1 ha.2)
  cases hhit
  rw [Map.faulted, heq]
  dsimp only
  set e : Entry := { m.entry i with
    object := t.object, offset := t.offset, cred := t.cred,
    eflags := { (m.entry i).eflags with needsCopy := t.needsCopy } }
  set m₁ : Map := { m with root := r }
  have hs : Same m₁ (m₁.setEntry i e) := Same.setEntry m₁ rfl rfl
  set m₂ : Map := { m₁.setEntry i e with
    obj := t.obj, freshObj := t.freshObj, timestamp := t.timestamp }
  have hwf₂ : Wf m₂ :=
    hwf.same ⟨rfl, rfl, rfl, rfl, rfl, rfl, rfl, rfl, hs.start, hs.stop⟩
  have hself : m₂.entry i = e := setEntry_entry_self m₁ i e
  have hother : ∀ j, j ≠ i → m₂.entry j = m.entry j := fun j hj => setEntry_entry_of_ne m₁ e hj
  refine ⟨⟨⟨hwf₂, rfl, hother, ?_, ?_, ?_, rfl, rfl, fun _ _ => rfl⟩, ?_, ?_, ?_, ?_⟩, rfl⟩
  all_goals rw [hself]
  all_goals rfl

/-- A page of an entry is wired. -/
theorem wirePage_spec (h : Wf m) {faddr : Nat} (hlo : (m.entry i).start ≤ faddr)
    (hhi : faddr + pageSize ≤ (m.entry i).stop) : Faulted m (m.wirePage faddr) i := by
  have hw : ∀ a, (m.entry i).contains a = false → (m.wirePage faddr).wired a = m.wired a := by
    intro a ha
    have hout : ¬((m.entry i).start ≤ a ∧ a < (m.entry i).stop) := by
      rw [← contains_iff, ha]
      simp
    have hpage : (decide (faddr ≤ a) && decide (a < faddr + pageSize)) = false := by
      rw [Bool.and_eq_false_iff, decide_eq_false_iff_not, decide_eq_false_iff_not]
      omega
    show (m.wired a || _) = _
    rw [hpage, Bool.or_false]
  refine ⟨⟨h.same ⟨rfl, rfl, rfl, rfl, rfl, rfl, rfl, rfl, fun _ _ => rfl, fun _ _ => rfl⟩, rfl,
    fun _ _ => rfl, rfl, rfl, rfl, rfl, rfl, hw⟩, rfl, rfl, rfl, rfl⟩

variable {stop start : Nat} {x : Wiring} {w : Bool} {m : Map}

/-- The pages of an entry are wired one by one, up to the end or to the first that
    cannot be. -/
theorem faultLoop_spec (fault : Map → Nat → Kern × Touch) (hstop : pageSize ∣ stop)
    (hlim : stop < 2 ^ 64) :
    ∀ {fuel : Nat} {m : Map} {faddr : Nat}, Wf m → i ∈ m.list → (m.entry i).stop = stop →
      (m.entry i).start ≤ faddr → faddr < stop → pageSize ∣ faddr →
      (stop - faddr) / pageSize ≤ fuel →
      ∃ rv faddr' m', Map.faultLoop fault stop fuel m faddr = some (rv, faddr', m') ∧
        Faulted m m' i ∧ faddr ≤ faddr' ∧ faddr' ≤ stop ∧ (rv ≠ .success → faddr' < stop) ∧
        ∀ a, m'.wired a = (m.wired a || (decide (faddr ≤ a) && decide (a < faddr'))) := by
  intro fuel
  induction fuel with
  | zero =>
    intro m faddr _ _ _ _ hlt hpage hfuel
    exfalso
    have hle : pageSize ≤ stop - faddr := Nat.le_of_dvd (by omega) (Nat.dvd_sub hstop hpage)
    have := Nat.div_pos hle (by decide)
    omega
  | succ fuel ih =>
    intro m faddr h hi he hlo hlt hpage hfuel
    have hle : pageSize ≤ stop - faddr := Nat.le_of_dvd (by omega) (Nat.dvd_sub hstop hpage)
    rw [Map.faultLoop]
    rcases hf : fault m faddr with ⟨rv, t⟩
    rcases faulted_spec h hi ⟨hlo, he ▸ hlt⟩ t with ⟨hfault, hwired⟩
    set m₁ := m.faulted faddr t
    dsimp only
    split
    case isTrue hne =>
      refine ⟨rv, faddr, m₁, rfl, hfault, le_refl _, hlt.le, fun _ => hlt, fun a => ?_⟩
      have hnone : (decide (faddr ≤ a) && decide (a < faddr)) = false := by
        rw [Bool.and_eq_false_iff, decide_eq_false_iff_not, decide_eq_false_iff_not]
        omega
      rw [hwired, hnone, Bool.or_false]
    case isFalse hok =>
    have hok' : rv = .success := not_not.mp hok
    have hadd : uadd faddr pageSize = faddr + pageSize := Nat.mod_eq_of_lt (by omega)
    have hlo₁ : (m₁.entry i).start ≤ faddr := by
      rw [hfault.turned.start]
      exact hlo
    have hhi₁ : faddr + pageSize ≤ (m₁.entry i).stop := by
      rw [hfault.turned.stop]
      omega
    have hpg := wirePage_spec hfault.turned.wf hlo₁ hhi₁
    have hboth := hfault.trans hpg
    rw [hadd]
    split
    case isFalse hend =>
      refine ⟨rv, faddr + pageSize, m₁.wirePage faddr, rfl, hboth, by omega, by omega,
        fun hne => absurd hok' hne, fun a => ?_⟩
      show (m₁.wired a || _) = _
      rw [hwired]
    case isTrue hmore =>
    have hdiv : (stop - (faddr + pageSize)) / pageSize ≤ fuel := by
      have hsub : stop - faddr = (stop - (faddr + pageSize)) + pageSize := by omega
      rw [hsub, Nat.add_div_right _ (by decide)] at hfuel
      omega
    rcases ih (m := m₁.wirePage faddr) hpg.turned.wf
      (by rw [hboth.turned.list]; exact hi) (by rw [hboth.turned.stop]; exact he)
      (by rw [hboth.turned.start]; omega) hmore (Nat.dvd_add hpage (Nat.dvd_refl _)) hdiv with
      ⟨rv', faddr', m', heq, hrest, h₁, h₂, h₃, h₄⟩
    refine ⟨rv', faddr', m', heq, hboth.trans hrest, by omega, h₂, h₃, fun a => ?_⟩
    have hpages : (m₁.wirePage faddr).wired a
        = (m.wired a || (decide (faddr ≤ a) && decide (a < faddr + pageSize))) := by
      rw [← hwired]
      rfl
    rw [h₄ a, hpages, Bool.eq_iff_iff]
    simp only [Bool.or_eq_true, Bool.and_eq_true, decide_eq_true_eq, or_assoc]
    refine or_congr_right ?_
    omega

end fault

/-! ## The turns -/

/-- What the first walk of `vm_map_wire` does to an address: how it was wired and
    whether its page was, and the marked entry and the page afterwards. `going` says
    whether the walk goes on. -/
inductive WireMark (flags : WireFlags) (going : Bool) (x : Wiring) (w : Bool) (e : Entry)
    (w' : Bool) : Prop where
  | skipped (hs : e.eflags.wireSkipped = true) (hp : ¬flags.Permits x.protection)
      (hg : going = true → flags.holesOk = true) (hx : e.wiring = x) (hw : w' = w)
  | fresh (hs : e.eflags.wireSkipped = false) (hc : x.count = 0) (hu : x.user = false)
      (hw : w = false) (hx : e.wiring = { x with count := 1 })
  | bumped (hs : e.eflags.wireSkipped = false) (hc : 1 ≤ x.count)
      (hu : flags.user = false ∨ x.user = false) (hx : e.wiring = { x with count := x.count + 1 })
      (hw : w' = w)
  | left (hs : e.eflags.wireSkipped = false) (hf : flags.user = true) (hu : x.user = true)
      (hc : 1 ≤ x.count) (hx : e.wiring = x) (hw : w' = w)
  | failed (hg : going = false) (hs : e.eflags.wireSkipped = false) (hc : x.count = 0)
      (hu : x.user = false) (hw : w = false) (hx : e.wiring = { x with count := -1 })
      (hw' : w' = false)

theorem WireMark.halt {flags : WireFlags} {w' : Bool} {e : Entry} (h : WireMark flags true x w e w')
    : WireMark flags false x w e w' := by
  cases h with
  | skipped hs hp hg hx hw => exact .skipped hs hp (by simp) hx hw
  | fresh hs hc hu hw hx => exact .fresh hs hc hu hw hx
  | bumped hs hc hu hx hw => exact .bumped hs hc hu hx hw
  | left hs hf hu hc hx hw => exact .left hs hf hu hc hx hw
  | failed hg => cases hg

/-- What `vm_map_wire` keeps to. After a system wiring an address is wired once more,
    unless it was skipped. -/
def wireContract (flags : WireFlags) : Contract where
  base := Sound
  good := WireMark flags true
  bad := WireMark flags false
  fatal _ := True
  ends rv x w y w' :=
    if rv = .success then
      flags.user = false → (¬flags.Permits x.protection ∧ flags.holesOk = true ∧ y = x ∧ w' = w) ∨
          (y = { x with count := x.count + 1 } ∧ (x.count = 0 ∨ w' = w))
    else y = x ∧ w' = w

/-- What `vm_map_unwire` keeps to. -/
def unwireContract (flags : WireFlags) : Contract where
  base _ _ := True
  good x w e w' := e.eflags.wireSkipped = false ∧ e.wiring = x ∧ w' = w
  bad x w e w' := e.eflags.wireSkipped = false ∧ e.wiring = x ∧ w' = w
  fatal x := flags.user = false ∧ x.count - (if x.user then 1 else 0) = 0
  ends rv x w y w' :=
    if rv = .success then
      flags.user = false → y = { x with count := x.count - 1 } ∧ w' = (w && decide (x.count ≠ 1))
    else y = x ∧ w' = w

section turn

variable {w : Walk} {i thread hi : Nat} {flags : WireFlags} {fault : Map → Nat → Kern × Touch}

theorem wiring_setCount (e : Entry) (n : Int) :
    ({ e with wiredCount := n } : Entry).wiring = { e.wiring with count := n } := rfl

/-- The entry is found again. -/
theorem wireRelock_spec (h : Wf w.map) (hi : i ∈ w.map.list) (faddr : Nat) (failed : Bool) :
    ∃ t, ∃ w', Map.wireRelock w (w.map.entry i).start (w.map.entry i).stop faddr failed i
        = some (w', i) ∧ w'.map = { w.map with root := t } ∧ Wf w'.map ∧
      (w'.first = w.first ∨ w'.first = none) := by
  rw [Map.wireRelock]
  split
  case isTrue => exact ⟨w.map.root, w, rfl, rfl, h, .inl rfl⟩
  case isFalse =>
  rcases lookup_spec h true (w.map.entry i).start with ⟨t, b, e, heq, hwf, hans⟩
  rcases List.append_of_mem hi with ⟨pre, post, hlist⟩
  have hne := h.laid.nonempty i hi
  have hhit := hans.unique h.laid (.hit pre i post hlist (le_refl _) hne)
  cases hhit
  rw [heq]
  dsimp only
  rw [Map.wireParts, if_neg (lt_irrefl _)]
  refine ⟨t, _, rfl, rfl, hwf, ?_⟩
  dsimp only
  split
  case isTrue hfirst => exact .inl hfirst.symm
  case isFalse => exact .inr rfl

/-- The pages of an entry that could not be wired are given back, and it is
    remembered. -/
theorem wireEntryFailure_spec (h : Wf m) (i faddr : Nat) (hlt : faddr < (m.entry i).stop) :
    Turned m (m.wireEntryFailure i faddr) i ∧
      (m.wireEntryFailure i faddr).entry i = { m.entry i with wiredCount := -1 } ∧
      ∀ a, (m.wireEntryFailure i faddr).wired a
        = (m.wired a && !(decide ((m.entry i).start ≤ a) && decide (a < faddr))) := by
  have hpages : ∀ a,
      m.wired a = (m.wired a && !(decide ((m.entry i).start ≤ a) && decide (a < faddr))) ∨
      ((m.entry i).start ≤ a ∧ a < faddr) := by
    intro a
    by_cases hin : (m.entry i).start ≤ a ∧ a < faddr
    · exact .inr hin
    left
    have hnone : (decide ((m.entry i).start ≤ a) && decide (a < faddr)) = false := by
      rw [Bool.and_eq_false_iff, decide_eq_false_iff_not, decide_eq_false_iff_not]
      omega
    rw [hnone, Bool.not_false, Bool.and_true]
  rw [Map.wireEntryFailure]
  dsimp only
  split
  case isTrue =>
    refine ⟨.write h rfl rfl rfl fun a ha => ?_, setEntry_entry_self .., fun a => rfl⟩
    rcases hpages a with hsame | hin
    · exact hsame.symm
    · rw [Bool.eq_false_iff] at ha
      exact absurd (contains_iff.mpr ⟨hin.1, by omega⟩) ha
  case isFalse hnone =>
  refine ⟨.setEntry h rfl rfl rfl, setEntry_entry_self .., fun a => ?_⟩
  rcases hpages a with hsame | hin
  · exact hsame
  · omega

/-- What a turn at a marked entry leaves, up to the check for holes. -/
structure WireTurned (flags : WireFlags) (thread : Nat) (w : Walk) (i : Nat) (t : Turn) : Prop where
  entry : t.entry = i
  turned : Turned w.map t.walk.map i
  marked : Map.marked thread (t.walk.map.entry i) = true
  first : t.walk.first = w.first ∨ t.walk.first = none
  code : t.stop ≠ some .success
  mark : ∀ a, (w.map.entry i).contains a = true →
    WireMark flags t.stop.isNone (w.map.entry i).wiring (w.map.wired a) (t.walk.map.entry i)
      (t.walk.map.wired a)

/-- An entry that was not wired is wired, or none of its pages is. -/
theorem wireEntry_spec (h : Wf w.map) (hi : i ∈ w.map.list) (hpage : Aligned (w.map.entry i))
    (hmark : Map.marked thread (w.map.entry i) = true)
    (hskip : (w.map.entry i).eflags.wireSkipped = false)
    (hbase : ∀ a, (w.map.entry i).contains a = true → Sound (w.map.entry i).wiring (w.map.wired a))
    (hzero : (w.map.entry i).wiredCount = 0) :
    ∃ t, Map.wireEntry fault w i = some t ∧ WireTurned flags thread w i t := by
  have hne := h.laid.nonempty i hi
  have hlim : (w.map.entry i).stop < 2 ^ 64 := by
    have := h.laid.high i hi
    have := h.limit.2
    omega
  -- Nothing of the entry was wired, and not by the user either.
  have huser : (w.map.entry i).wiring.user = false := by
    have hs := hbase (w.map.entry i).start (contains_iff.mpr ⟨le_refl _, hne⟩)
    rw [Bool.eq_false_iff]
    intro hu
    have := hs.user hu
    have hcount : (w.map.entry i).wiring.count = 0 := hzero
    omega
  have hdry : ∀ a, (w.map.entry i).contains a = true → w.map.wired a = false :=
    fun a ha => (hbase a ha).pages hzero
  set e := w.map.entry i with he
  have hturn₁ : Turned w.map (w.map.setEntry i { e with wiredCount := e.wiredCount + 1 }) i :=
    .setEntry h rfl rfl rfl
  set m₁ := w.map.setEntry i { e with wiredCount := e.wiredCount + 1 } with hm₁
  have hself₁ : m₁.entry i = { e with wiredCount := e.wiredCount + 1 } := setEntry_entry_self ..
  have hi₁ : i ∈ m₁.list := hi
  have hstart₁ : (m₁.entry i).start = e.start := hturn₁.start
  have hstop₁ : (m₁.entry i).stop = e.stop := hturn₁.stop
  rcases faultLoop_spec fault hpage.2 hlim hturn₁.wf hi₁ hstop₁ hstart₁.le hne hpage.1
    (Nat.le_succ ((e.stop - e.start) / pageSize)) with
    ⟨rv, faddr, m₂, hloop, hfault, hle, hle', hlt, hwired⟩
  have hboth := hturn₁.trans hfault.turned
  have hi₂ : i ∈ m₂.lock.list := by
    show i ∈ m₂.list
    rw [hboth.list]
    exact hi
  have hrelock := wireRelock_spec (w := { w with map := m₂.lock }) hfault.turned.wf.lock hi₂ faddr
    (decide (rv ≠ .success))
  have hplace : (m₂.lock.entry i).start = e.start ∧ (m₂.lock.entry i).stop = e.stop :=
    ⟨hboth.start, hboth.stop⟩
  rcases hrelock with ⟨t, w₃, hrel, hmap, hwf₃, hfirst⟩
  rw [Map.wireEntry, ← he]
  dsimp only
  rw [← hm₁, hloop]
  dsimp only at hrel ⊢
  rw [hplace.1, hplace.2] at hrel
  rw [hrel]
  have hself₂ : (w₃.map.entry i).wiring = { e.wiring with count := 1 } := by
    have hw₂ : (m₂.entry i).wiring = (m₁.entry i).wiring := hfault.wiring
    rw [hmap]
    show (m₂.entry i).wiring = _
    rw [hw₂, hself₁, Entry.wiring, Entry.wiring, hzero]
    rfl
  have hturned : Turned w.map w₃.map i := by
    refine ⟨hwf₃, ?_, ?_, ?_, ?_, ?_, ?_, ?_, ?_⟩
    all_goals rw [hmap]
    · exact hboth.list
    · exact hboth.other
    · exact hboth.start
    · exact hboth.stop
    · exact hboth.protection
    · exact hboth.minOffset
    · exact hboth.maxOffset
    · exact hboth.wired
  have hentry : w₃.map.entry i = m₂.entry i := by rw [hmap]; rfl
  have hmarked : Map.marked thread (w₃.map.entry i) = true := by
    have hm : Map.marked thread (m₁.entry i) = true := by rw [hself₁]; exact hmark
    rw [hentry]
    rw [marked_iff] at hm ⊢
    rw [hfault.inTransition, hfault.wiringThread]
    exact hm
  have hskipped : (w₃.map.entry i).eflags.wireSkipped = false := by
    rw [hentry, hfault.wireSkipped, hself₁]
    exact hskip
  have hpages : ∀ a, w₃.map.wired a
      = (w.map.wired a || (decide (e.start ≤ a) && decide (a < faddr))) := by
    intro a
    rw [hmap]
    exact hwired a
  refine ⟨_, rfl, ?_⟩
  split
  case isFalse hok =>
    exact ⟨rfl, hturned, hmarked, hfirst, by simp, fun a ha =>
      .fresh hskipped hzero huser (hdry a ha) hself₂⟩
  case isTrue hfail =>
  have hstop₃ : (w₃.map.entry i).stop = e.stop := hturned.stop
  have hstart₃ : (w₃.map.entry i).start = e.start := hturned.start
  rcases wireEntryFailure_spec hwf₃ i faddr (by rw [hstop₃]; exact hlt hfail) with
    ⟨hturn₄, hself₄, hwired₄⟩
  refine ⟨rfl, hturned.trans hturn₄, ?_, hfirst, fun hc => hfail (Option.some.inj hc), fun a ha =>
    .failed rfl ?_ hzero huser (hdry a ha) ?_ ?_⟩
  · rw [hself₄]
    exact hmarked
  · rw [hself₄]
    exact hskipped
  · rw [hself₄, wiring_setCount, hself₂]
  · rw [hwired₄, hpages, hdry a ha, Bool.false_or, hstart₃, Bool.and_not_self]

/-- What `vm_map_wire` does to a marked entry before it looks for a hole. -/
theorem wireMarked_spec (h : Wf w.map) (hi : i ∈ w.map.list) (hpage : Aligned (w.map.entry i))
    (hmark : Map.marked thread (w.map.entry i) = true)
    (hskip : (w.map.entry i).eflags.wireSkipped = false)
    (hbase : ∀ a, (w.map.entry i).contains a = true →
      Sound (w.map.entry i).wiring (w.map.wired a)) :
    ∃ t, Map.wireMarked fault flags w i = some t ∧ WireTurned flags thread w i t := by
  have hne := h.laid.nonempty i hi
  have hsound := hbase (w.map.entry i).start (contains_iff.mpr ⟨le_refl _, hne⟩)
  rw [Map.wireMarked]
  dsimp only
  split
  case isTrue hprot =>
    have hno : ¬flags.Permits (w.map.entry i).wiring.protection := by
      intro hp
      rcases hprot with hprot | hprot
      · have hgrants := hp.1
        rw [Entry.wiring, hprot] at hgrants
        cases hgrants
      · exact hprot hp.2
    refine ⟨_, rfl, rfl, .setEntry h rfl rfl rfl, ?_, .inl rfl, ?_, fun a _ => ?_⟩
    · dsimp only
      rw [setEntry_entry_self]
      exact hmark
    · dsimp only
      split <;> simp
    dsimp only
    rw [setEntry_entry_self]
    refine .skipped rfl hno (fun hg => ?_) rfl rfl
    split at hg
    case isTrue hholes => exact hholes
    case isFalse => cases hg
  case isFalse =>
  split
  case isTrue hzero => exact wireEntry_spec h hi hpage hmark hskip hbase hzero
  case isFalse hpos =>
  have hcount : 1 ≤ (w.map.entry i).wiring.count := by
    have hnonneg := hsound.nonneg
    have hne : (w.map.entry i).wiring.count ≠ 0 := hpos
    omega
  split
  case isTrue hbump =>
    refine ⟨_, rfl, rfl, .setEntry h rfl rfl rfl, ?_, .inl rfl, by simp, fun a _ => ?_⟩
    · dsimp only
      rw [setEntry_entry_self]
      exact hmark
    dsimp only
    rw [setEntry_entry_self]
    exact .bumped hskip hcount hbump rfl rfl
  case isFalse hleft =>
    rw [not_or, Bool.not_eq_false, Bool.not_eq_false] at hleft
    exact ⟨_, rfl, rfl, .refl h i, hmark, .inl rfl, by simp, fun a _ =>
      .left hskip hleft.1 hleft.2 hcount rfl rfl⟩

theorem wireTurn_ok (fault : Map → Nat → Kern × Touch) (flags : WireFlags) (thread hi : Nat) :
    TurnOk (wireContract flags) thread hi flags.holesOk (Map.wireTurn fault flags hi) := by
  intro w i h hi' hpage hmark hskip hbase
  have hmarked : ∃ t, Map.wireMarked fault flags w i = some t ∧ WireTurned flags thread w i t :=
    wireMarked_spec h hi' hpage hmark hskip hbase
  rcases hmarked with ⟨⟨stop, w', j⟩, heq, ht⟩
  have hj : j = i := ht.entry
  rw [hj] at heq
  rw [Map.wireTurn, heq]
  cases stop with
  | some rv =>
    refine ⟨_, rfl, rfl, ht.turned, ht.marked, ht.first, nofun, fun rv' hrv => ?_⟩
    refine ⟨fun hs => ht.code ?_, .inr trivial, ht.mark⟩
    rw [← hs, ← hrv]
  | none =>
    dsimp only
    split
    case isTrue hhole =>
      refine ⟨_, rfl, rfl, ht.turned, ht.marked, ht.first, nofun,
        fun rv' hrv => ?_⟩
      refine ⟨fun hs => ?_, .inl hhole, fun a ha => (ht.mark a ha).halt⟩
      rw [hs] at hrv
      cases hrv
    case isFalse hnone =>
    refine ⟨_, rfl, rfl, ht.turned, ht.marked, ht.first, fun _ => ⟨fun hno => ?_, ht.mark⟩,
      nofun⟩
    rw [Bool.eq_false_iff]
    exact fun hhole => hnone ⟨hno, hhole⟩

/-- The turn of `vm_map_unwire`. -/
theorem unwireTurn_ok (flags : WireFlags) (thread hi : Nat) :
    TurnOk (unwireContract flags) thread hi flags.holesOk (Map.unwireTurn flags hi) := by
  intro w i h hi' hpage hmark hskip hbase
  have hkept : ∀ a, (w.map.entry i).contains a = true →
      (w.map.entry i).eflags.wireSkipped = false ∧ (w.map.entry i).wiring = (w.map.entry i).wiring ∧
        w.map.wired a = w.map.wired a := fun _ _ => ⟨hskip, rfl, rfl⟩
  rw [Map.unwireTurn]
  split
  case isTrue hhole =>
    exact ⟨_, rfl, rfl, .refl h i, hmark, .inl rfl, nofun, fun rv hrv =>
      ⟨by cases hrv; simp, .inl hhole, hkept⟩⟩
  case isFalse hnone =>
  split
  case isTrue hsys =>
    exact ⟨_, rfl, rfl, .refl h i, hmark, .inl rfl, nofun, fun rv hrv =>
      ⟨by cases hrv; simp, .inr hsys, hkept⟩⟩
  case isFalse =>
  refine ⟨_, rfl, rfl, .refl h i, hmark, .inl rfl, fun _ => ⟨fun hno => ?_, hkept⟩,
    nofun⟩
  rw [Bool.eq_false_iff]
  exact fun hhole => hnone ⟨hno, hhole⟩

end turn

/-! ## Settling -/

section settle

variable {m : Map} {i thread : Nat} {rv : Kern} {flags : WireFlags}

/-- Giving an entry up does not touch how it is wired. -/
theorem wireRelease_spec (h : Wf m) (i : Nat) :
    Turned m (m.wireRelease i) i ∧ ((m.wireRelease i).entry i).wiring = (m.entry i).wiring ∧
      ((m.entry i).eflags.wireSkipped = false → Unmarked ((m.wireRelease i).entry i)) := by
  have hself : (m.wireRelease i).entry i = { m.entry i with
      eflags := { (m.entry i).eflags with inTransition := false, needsWakeup := false },
      wiringThread := none } := setEntry_entry_self ..
  rw [hself]
  exact ⟨.setEntry h rfl rfl rfl, rfl, fun hs => ⟨rfl, hs, rfl⟩⟩

/-- An entry is unwired, and so are its pages. -/
theorem entryUnwire_spec (h : Wf m) (i : Nat) : Turned m (m.entryUnwire i) i ∧
      (m.entryUnwire i).entry i = { m.entry i with wiredCount := 0 } ∧
      ∀ a, (m.entry i).contains a = true → (m.entryUnwire i).wired a = false := by
  refine ⟨.write h rfl rfl rfl fun a ha => ?_, setEntry_entry_self .., fun a ha => ?_⟩
  · have hout : (m.wired a && !(m.entry i).contains a) = m.wired a := by
      rw [ha, Bool.not_false, Bool.and_true]
    exact hout
  have hin : (m.wired a && !(m.entry i).contains a) = false := by
    rw [ha, Bool.not_true, Bool.and_false]
  exact hin

/-- An entry is wired once less, and its pages not at all if that was the last time. -/
theorem wireLess_spec (h : Wf m) (i : Nat) : Turned m (m.wireLess i) i ∧
      (m.wireLess i).entry i = { m.entry i with wiredCount := (m.entry i).wiredCount - 1 } ∧
      ∀ a, (m.entry i).contains a = true →
        (m.wireLess i).wired a = (m.wired a && decide ((m.entry i).wiredCount ≠ 1)) := by
  rw [Map.wireLess]
  dsimp only
  split
  case isTrue hone =>
    rcases entryUnwire_spec h i with ⟨hturned, hself, hpages⟩
    refine ⟨hturned, ?_, fun a ha => ?_⟩
    · rw [hself, hone]
      rfl
    · rw [hpages a ha, decide_eq_false (not_not.mpr hone), Bool.and_false]
  case isFalse hmore =>
    refine ⟨.setEntry h rfl rfl rfl, setEntry_entry_self .., fun a _ => ?_⟩
    rw [decide_eq_true hmore, Bool.and_true]
    rfl

theorem wireUndo_turned (user : Bool) (rv : Kern) (h : Wf m) (i : Nat) :
    Turned m (Map.wireUndo user rv m i) i := by
  rw [Map.wireUndo]
  dsimp only
  split
  case isTrue => exact .setEntry h rfl rfl rfl
  case isFalse =>
  split
  case isTrue =>
    split
    case isTrue => exact .setEntry h rfl rfl rfl
    case isFalse => exact .refl h i
  case isFalse =>
  split
  case isTrue => exact .setEntry h rfl rfl rfl
  case isFalse =>
    split
    case isTrue => exact (wireLess_spec h i).1
    case isFalse => exact .refl h i

/-- The flags and the count of a marked entry say how to take it back. -/
theorem wireUndo_fails (h : Wf m) (hne : rv ≠ .success) {a : Nat}
    (ha : (m.entry i).contains a = true) (hmark : WireMark flags false x w (m.entry i) (m.wired a))
    : ((Map.wireUndo flags.user rv m i).entry i).eflags.wireSkipped = false ∧
      ((Map.wireUndo flags.user rv m i).entry i).wiring = x ∧
      (Map.wireUndo flags.user rv m i).wired a = w := by
  rw [Map.wireUndo]
  dsimp only
  cases hmark with
  | skipped hs hp hg hx hw =>
    rw [if_pos hs, setEntry_entry_self]
    exact ⟨rfl, hx, hw⟩
  | fresh hs hc hu hw hx =>
    have hcount : (m.entry i).wiredCount = 1 := congrArg Wiring.count hx
    have huser : (m.entry i).eflags.userWired = false := (congrArg Wiring.user hx).trans hu
    rw [if_neg (by simp [hs]), if_neg hne, if_neg (by simp [hcount]), if_pos (.inr huser)]
    rcases wireLess_spec h i with ⟨-, hself, hpages⟩
    rw [hself, hpages a ha, hw, decide_eq_false (not_not.mpr hcount), Bool.and_false]
    refine ⟨hs, ?_, rfl⟩
    rw [wiring_setCount, hcount, hx, Int.sub_self, ← hc]
  | bumped hs hc hu hx hw =>
    have hcount : (m.entry i).wiredCount = x.count + 1 := congrArg Wiring.count hx
    have huser : (m.entry i).eflags.userWired = x.user := congrArg Wiring.user hx
    rw [if_neg (by simp [hs]), if_neg hne, if_neg (by omega), if_pos (by rwa [huser])]
    rcases wireLess_spec h i with ⟨-, hself, hpages⟩
    have hmore : (m.entry i).wiredCount ≠ 1 := by omega
    rw [hself, hpages a ha, hw, decide_eq_true hmore, Bool.and_true]
    refine ⟨hs, ?_, rfl⟩
    rw [wiring_setCount, hcount, hx, Int.add_sub_cancel]
  | left hs hf hu hc hx hw =>
    have hcount : (m.entry i).wiredCount = x.count := congrArg Wiring.count hx
    have huser : (m.entry i).eflags.userWired = x.user := congrArg Wiring.user hx
    rw [if_neg (by simp [hs]), if_neg hne, if_neg (by omega), if_neg (by simp [hf, huser, hu])]
    exact ⟨hs, hx, hw⟩
  | failed hg hs hc hu hw hx hw' =>
    have hcount : (m.entry i).wiredCount = -1 := congrArg Wiring.count hx
    rw [if_neg (by simp [hs]), if_neg hne, if_pos hcount, setEntry_entry_self]
    refine ⟨hs, ?_, hw'.trans hw.symm⟩
    rw [wiring_setCount, hx, ← hc]

/-- What the system has wired stays. -/
theorem wireUndo_succeeds {a : Nat} (hmark : WireMark flags true x w (m.entry i) (m.wired a)) :
    ((Map.wireUndo flags.user .success m i).entry i).eflags.wireSkipped = false ∧
      (wireContract flags).ends .success x w
        ((Map.wireUndo flags.user .success m i).entry i).wiring
        ((Map.wireUndo flags.user .success m i).wired a) := by
  have hkeep : (m.entry i).eflags.wireSkipped = false →
      ((Map.wireUndo flags.user .success m i).entry i).eflags.wireSkipped = false ∧
        (flags.user = false →
          ((Map.wireUndo flags.user .success m i).entry i).wiring = (m.entry i).wiring) ∧
        (Map.wireUndo flags.user .success m i).wired a = m.wired a := by
    intro hs
    rw [Map.wireUndo]
    dsimp only
    rw [if_neg (by simp [hs]), if_pos rfl]
    split
    case isTrue huser =>
      rw [setEntry_entry_self]
      exact ⟨hs, fun hno => absurd (hno.symm.trans huser) (by simp), rfl⟩
    case isFalse => exact ⟨hs, fun _ => rfl, rfl⟩
  have hends : ∀ y w', (wireContract flags).ends .success x w y w' = (flags.user = false →
        (¬flags.Permits x.protection ∧ flags.holesOk = true ∧ y = x ∧ w' = w) ∨
          (y = { x with count := x.count + 1 } ∧ (x.count = 0 ∨ w' = w))) := by
    intro y w'
    simp only [wireContract, if_true]
  rw [hends]
  cases hmark with
  | skipped hs hp hg hx hw =>
    rw [Map.wireUndo]
    dsimp only
    rw [if_pos hs, setEntry_entry_self]
    exact ⟨rfl, fun _ => .inl ⟨hp, hg rfl, hx, hw⟩⟩
  | fresh hs hc hu hw hx =>
    rcases hkeep hs with ⟨hs', hsame, hwired⟩
    refine ⟨hs', fun huser => .inr ⟨?_, .inl hc⟩⟩
    rw [hsame huser, hx, hc]
    rfl
  | bumped hs hc hu hx hw =>
    rcases hkeep hs with ⟨hs', hsame, hwired⟩
    refine ⟨hs', fun huser => .inr ⟨?_, .inr (hwired.trans hw)⟩⟩
    rw [hsame huser, hx]
  | left hs hf hu hc hx hw =>
    rcases hkeep hs with ⟨hs', hsame, hwired⟩
    exact ⟨hs', fun huser => absurd (huser.symm.trans hf) (by simp)⟩
  | failed hg => cases hg

theorem wireSettle_ok (flags : WireFlags) (thread : Nat) (rv : Kern) :
    SettleOk (wireContract flags) thread rv (Map.wireSettle flags.user rv) := by
  intro m i h _ _
  have hturned := wireUndo_turned flags.user rv h i
  rcases wireRelease_spec hturned.wf i with ⟨hrelease, hwiring, hquiet⟩
  refine ⟨hturned.trans hrelease, fun a x w ha hmark => ?_⟩
  have hwired : (Map.wireSettle flags.user rv m i).wired = (Map.wireUndo flags.user rv m i).wired :=
    rfl
  rw [Map.wireSettle] at hwired ⊢
  rw [hwiring, hwired]
  by_cases hrv : rv = .success
  · rw [hrv] at hmark hquiet ⊢
    rw [Contract.mark, if_pos rfl] at hmark
    rcases wireUndo_succeeds hmark with ⟨hs, hend⟩
    exact ⟨hquiet hs, hend⟩
  rw [Contract.mark, if_neg hrv] at hmark
  rcases wireUndo_fails h hrv ha hmark with ⟨hs, hend⟩
  refine ⟨hquiet hs, ?_⟩
  show if rv = .success then _ else _
  rw [if_neg hrv]
  exact hend

/-- What `vm_map_unwire` does to an entry, where the system unwires. -/
theorem unwireCount_spec (user : Bool) (rv : Kern) (h : Wf m) (i : Nat) :
    Turned m (Map.unwireCount user rv m i) i ∧
      ((Map.unwireCount user rv m i).entry i).eflags.wireSkipped
        = (m.entry i).eflags.wireSkipped ∧
      (rv ≠ .success → Map.unwireCount user rv m i = m) ∧
      (rv = .success → user = false → Map.unwireCount user rv m i = m.wireLess i) := by
  rw [Map.unwireCount]
  dsimp only
  split
  case isFalse hno =>
    refine ⟨.refl h i, rfl, fun _ => rfl, fun hrv huser => absurd ⟨hrv, .inl huser⟩ hno⟩
  case isTrue hyes =>
  set m₁ := if user then m.setEntry i { m.entry i with
      eflags := { (m.entry i).eflags with userWired := false } } else m with hm₁
  have hfirst : Turned m m₁ i ∧
      (m₁.entry i).eflags.wireSkipped = (m.entry i).eflags.wireSkipped := by
    rw [hm₁]
    split
    case isTrue =>
      rw [setEntry_entry_self]
      exact ⟨.setEntry h rfl rfl rfl, rfl⟩
    case isFalse => exact ⟨.refl h i, rfl⟩
  rcases wireLess_spec hfirst.1.wf i with ⟨hturned, hself, -⟩
  refine ⟨hfirst.1.trans hturned, ?_, fun hrv => absurd hyes.1 hrv, fun _ huser => ?_⟩
  · rw [hself]
    exact hfirst.2
  · rw [hm₁, huser, if_neg (by simp)]

/-- The second walk of `vm_map_unwire`. -/
theorem unwireSettle_ok (flags : WireFlags) (thread : Nat) (rv : Kern) :
    SettleOk (unwireContract flags) thread rv (Map.unwireSettle flags.user rv) := by
  intro m i h _ _
  rcases unwireCount_spec flags.user rv h i with
    ⟨hturned, hskip, hfails, hsucceeds⟩
  rcases wireRelease_spec hturned.wf i with ⟨hrelease, hwiring, hquiet⟩
  refine ⟨hturned.trans hrelease, fun a x w ha hmark => ?_⟩
  have hmark' : (m.entry i).eflags.wireSkipped = false ∧ (m.entry i).wiring = x ∧
      m.wired a = w := by
    rw [Contract.mark] at hmark
    split at hmark
    case isTrue => exact hmark
    case isFalse => exact hmark
  rcases hmark' with ⟨hs, hx, hw⟩
  have hwired : (Map.unwireSettle flags.user rv m i).wired
      = (Map.unwireCount flags.user rv m i).wired := rfl
  rw [Map.unwireSettle] at hwired ⊢
  refine ⟨hquiet (hskip.trans hs), ?_⟩
  rw [hwiring, hwired]
  show if rv = .success then _ else _
  split
  case isTrue hrv =>
    intro huser
    rcases wireLess_spec h i with ⟨-, hself, hpages⟩
    rw [hsucceeds hrv huser, hself, hpages a ha, hw, wiring_setCount, hx]
    have hcount : (m.entry i).wiredCount = x.count := congrArg Wiring.count hx
    rw [hcount]
    exact ⟨rfl, rfl⟩
  case isFalse hrv =>
    rw [hfails hrv]
    exact ⟨hx, hw⟩

end settle

/-! ## The whole call -/

/-- What a call to `vm_map_wire` on a map no thread is wiring comes to. -/
theorem wire_spec (h : Wf m) (hr : Ready m) (thread : Nat) (fault : Map → Nat → Kern × Touch)
    (hstart : pageSize ∣ start) (hstop : pageSize ∣ stop) (hle : start ≤ stop) (flags : WireFlags) :
    (start = stop ∧ m.wire thread fault start stop flags = some (.success, m)) ∨
      ∃ rv m', m.wire thread fault start stop flags = some (rv, m') ∧
        Wrought (wireContract flags) flags.holesOk m m' (m.rangeCheck start stop).1
          (m.rangeCheck start stop).2 rv := by
  have hown : ∀ e, Map.marked thread e = true →
      (e.eflags.wireSkipped || Map.marked thread e) = true := by
    intro e he
    rw [he, Bool.or_true]
  exact wireWith_spec (wireTurn_ok fault flags thread) hstart hstop hle hr.minOffset hr.maxOffset
    (fun _ _ _ _ hm => hm.halt) hr.sound hown (wireSettle_ok flags thread) h hr.quiet hr.aligned

/-- What a call to `vm_map_unwire` comes to. -/
theorem unwire_spec (h : Wf m) (hquiet : ∀ i ∈ m.list, Unmarked (m.entry i))
    (haligned : ∀ i ∈ m.list, Aligned (m.entry i)) (hmin : pageSize ∣ m.minOffset)
    (hmax : pageSize ∣ m.maxOffset) (thread : Nat) (hstart : pageSize ∣ start)
    (hstop : pageSize ∣ stop) (hle : start ≤ stop) (flags : WireFlags) :
    (start = stop ∧ m.unwire thread start stop flags = some (.success, m)) ∨
      ∃ rv m', m.unwire thread start stop flags = some (rv, m') ∧
        Wrought (unwireContract flags) flags.holesOk m m' (m.rangeCheck start stop).1
          (m.rangeCheck start stop).2 rv :=
  wireWith_spec (unwireTurn_ok flags thread) hstart hstop hle hmin hmax (fun _ _ _ _ hm => hm)
    (fun _ _ _ => trivial) (fun _ he => he) (unwireSettle_ok flags thread) h hquiet haligned

/-- A system wiring that skipped nothing is undone by unwiring the same range. -/
theorem unwire_after_wire {m' : Map} (h : Wf m) (hr : Ready m) (hstart : pageSize ∣ start)
    (hstop : pageSize ∣ stop) (hle : start ≤ stop) {flags : WireFlags} (huser : flags.user = false)
    (hpermits : flags.holesOk = true →
      ∀ a x, start ≤ a → a < stop → m.wiring a = some x → flags.Permits x.protection)
    (hwire : Wrought (wireContract flags) flags.holesOk m m' (m.rangeCheck start stop).1
      (m.rangeCheck start stop).2 .success) (thread : Nat) :
    ∃ m'', m'.unwire thread start stop flags = some (.success, m'') ∧
      ∀ a, m''.wiring a = m.wiring a ∧ m''.wired a = m.wired a := by
  have hrange : m'.rangeCheck start stop = m.rangeCheck start stop := by
    rw [Map.rangeCheck, Map.rangeCheck, hwire.minOffset, hwire.maxOffset]
  have hiff := fun a => rangeCheck_iff m start stop (a := a)
  rcases hlohi : m.rangeCheck start stop with ⟨lo, hi⟩
  rw [hlohi] at hrange hwire hiff
  dsimp only at hwire hiff
  -- Every address of the range that is mapped is wired once more.
  have hinside : ∀ a x, lo ≤ a → a < hi → m.wiring a = some x →
      m'.wiring a = some { x with count := x.count + 1 } ∧
        (x.count = 0 ∨ m'.wired a = m.wired a) := by
    intro a x h₁ h₂ hx
    rcases hwire.inside rfl a x h₁ h₂ hx with ⟨y, hy, hend⟩
    simp only [wireContract, if_true] at hend
    rcases hend huser with ⟨hskip, hholes, -⟩ | ⟨hcount, hpages⟩
    · rcases exists_of_wiring hx with ⟨j, hj, hc, -⟩
      have := h.laid.low j hj
      have := h.laid.high j hj
      have := contains_iff.mp hc
      have hin := (hiff a (by omega) (by omega)).mp ⟨h₁, h₂⟩
      exact absurd (hpermits hholes a x hin.1 hin.2 hx) hskip
    · rw [hy, hcount]
      exact ⟨rfl, hpages⟩
  rcases unwire_spec hwire.wf hwire.quiet hwire.aligned (hwire.minOffset ▸ hr.minOffset)
    (hwire.maxOffset ▸ hr.maxOffset) thread hstart hstop hle flags with
    ⟨hempty, hsame⟩ | ⟨rv, m'', heq, hun⟩
  · refine ⟨m', hsame, fun a => hwire.outside a ?_⟩
    have hsub : m.rangeCheck start stop = (lo, hi) := hlohi
    simp only [Map.rangeCheck, Prod.mk.injEq] at hsub
    split at hsub <;> split at hsub <;> split at hsub <;> omega
  rw [hrange] at hun
  dsimp only at hun
  have hrv : rv = .success := by
    by_contra hne
    rcases hun.failure hne with ⟨hno, a, ha, hnone⟩ | ⟨a, y, h₁, h₂, hy, hfatal⟩
    · -- There was no hole when the range was wired.
      have hsome := hwire.solid rfl hno a ha
      rcases Option.isSome_iff_exists.mp hsome with ⟨x, hx⟩
      rcases hwire.either a with ⟨hkept, -⟩ | ⟨_, y, _, hy, -⟩
      · rw [hkept, hx] at hnone
        cases hnone
      · rw [hy] at hnone
        cases hnone
    -- What was wired once more is wired by the system.
    cases hx : m.wiring a with
    | none =>
      rcases hwire.either a with ⟨hkept, -⟩ | ⟨x, _, hx', _, -⟩
      · rw [hkept, hx] at hy
        cases hy
      · rw [hx] at hx'
        cases hx'
    | some x =>
      rw [(hinside a x h₁ h₂ hx).1, Option.some.injEq] at hy
      have hsound := hr.sound a x hx
      have hzero := hfatal.2
      rw [← hy] at hzero
      dsimp only at hzero
      have := hsound.nonneg
      split at hzero
      case isTrue hu =>
        have := hsound.user hu
        omega
      case isFalse => omega
  rw [hrv] at heq hun
  refine ⟨m'', heq, fun a => ?_⟩
  by_cases ha : lo ≤ a ∧ a < hi
  · cases hx : m.wiring a with
    | none =>
      have hm' : m'.wiring a = m.wiring a ∧ m'.wired a = m.wired a := by
        rcases hwire.either a with hkept | ⟨x, _, hx', _, -⟩
        · exact hkept
        · rw [hx] at hx'
          cases hx'
      rcases hun.either a with ⟨hkept, hkeptPages⟩ | ⟨y, _, hy, _, -⟩
      · rw [hkept, hkeptPages, hm'.1, hm'.2, hx]
        exact ⟨rfl, rfl⟩
      · rw [hm'.1, hx] at hy
        cases hy
    | some x =>
      rcases hinside a x ha.1 ha.2 hx with ⟨hy, hpages⟩
      rcases hun.inside rfl a _ ha.1 ha.2 hy with ⟨z, hz, hend⟩
      simp only [unwireContract, if_true] at hend
      rcases hend huser with ⟨hz', hw⟩
      rw [hz, hz', hw]
      have hback : x.count + 1 - 1 = x.count := Int.add_sub_cancel _ _
      refine ⟨by rw [hback], ?_⟩
      have hsound := hr.sound a x hx
      by_cases hzero : x.count = 0
      · rw [hsound.pages hzero, hzero]
        simp
      have hmore : x.count + 1 ≠ 1 := by omega
      rw [decide_eq_true hmore, Bool.and_true]
      exact hpages.resolve_left hzero
  have hout : a < lo ∨ hi ≤ a := by omega
  rw [(hun.outside a hout).1, (hun.outside a hout).2, (hwire.outside a hout).1,
    (hwire.outside a hout).2]
  exact ⟨rfl, rfl⟩

/-- Wiring a range of a map no thread is wiring. The call returns and leaves no entry
    marked. If it fails, every address is wired as it was, and so is every page. If
    the system has wired the range and has skipped no entry, which without holes it
    never does, then unwiring the range takes everything back. -/
theorem vm_map_wire_failure_is_atomic (m : Map) (h : Wf m) (hr : Ready m) (thread : Nat)
    (fault : Map → Nat → Kern × Touch) (start stop : Nat) (hstart : pageSize ∣ start)
    (hstop : pageSize ∣ stop) (hle : start ≤ stop) (flags : WireFlags) :
    ∃ rv m', m.wire thread fault start stop flags = some (rv, m') ∧
      (∀ i ∈ m'.list, Unmarked (m'.entry i)) ∧
      (rv ≠ .success → ∀ a, m'.wiring a = m.wiring a ∧ m'.wired a = m.wired a) ∧
      (rv = .success → flags.user = false → (flags.holesOk = true →
          ∀ a x, start ≤ a → a < stop → m.wiring a = some x → flags.Permits x.protection) →
        ∀ thread', ∃ m'', m'.unwire thread' start stop flags = some (.success, m'') ∧
          ∀ a, m''.wiring a = m.wiring a ∧ m''.wired a = m.wired a) := by
  rcases wire_spec h hr thread fault hstart hstop hle flags with ⟨hempty, heq⟩ | ⟨rv, m', heq, hw⟩
  · refine ⟨.success, m, heq, hr.quiet, fun hne => absurd rfl hne, fun _ _ _ thread' => ?_⟩
    refine ⟨m, ?_, fun a => ⟨rfl, rfl⟩⟩
    rw [Map.unwire, Map.wireWith, if_pos hempty]
  refine ⟨rv, m', heq, hw.quiet, fun hne a => ?_, fun hrv huser hpermits thread' => ?_⟩
  · rcases hw.either a with hkept | ⟨x, y, hx, hy, hend⟩
    · exact hkept
    simp only [wireContract, if_neg hne] at hend
    rw [hx, hy, hend.1, hend.2]
    exact ⟨rfl, rfl⟩
  · rw [hrv] at hw
    exact unwire_after_wire h hr hstart hstop hle huser hpermits hw thread'

theorem sample_ready : Ready sample where
  aligned := by
    show ∀ i ∈ [0, 1], pageSize ∣ (sample.entry i).start ∧ pageSize ∣ (sample.entry i).stop
    decide
  minOffset := by decide
  maxOffset := by decide
  quiet := by
    intro i hi
    have hall : ∀ i ∈ [0, 1], (sample.entry i).eflags.inTransition = false ∧
        (sample.entry i).eflags.wireSkipped = false ∧ (sample.entry i).wiringThread = none := by
      decide
    rcases hall i hi with ⟨h₁, h₂, h₃⟩
    exact ⟨h₁, h₂, h₃⟩
  sound := by
    intro a x hx
    rcases exists_of_wiring hx with ⟨i, hi, -, rfl⟩
    have hall : ∀ i ∈ [0, 1], (sample.entry i).wiring.count = 0 ∧
        (sample.entry i).wiring.user = false := by decide
    rcases hall i hi with ⟨hcount, huser⟩
    exact ⟨hcount.ge, fun hu => absurd (huser.symm.trans hu) (by simp), fun _ => rfl⟩

/-- Every fault succeeds, and gives the entry an object. -/
def plainFault (m : Map) (_ : Nat) : Kern × Touch :=
  (.success, { object := some m.freshObj, offset := 0, needsCopy := false, cred := none,
               obj := m.obj, freshObj := m.freshObj + 1, timestamp := m.timestamp + 1 })

/-- The first page is wired before the hole behind it is found. -/
theorem vm_map_wire_failure_is_atomic_sample :
    ∃ m', sample.wire 7 plainFault 8192 20480 {} = some (.invalidAddress, m') ∧
      (∀ i ∈ m'.list, Unmarked (m'.entry i)) ∧
      ∀ a, m'.wiring a = sample.wiring a ∧ m'.wired a = sample.wired a := by
  rcases vm_map_wire_failure_is_atomic sample sample_wf sample_ready 7 plainFault 8192 20480
    (by decide) (by decide) (by decide) {} with ⟨rv, m', heq, hquiet, hfail, -⟩
  have hrv : (sample.wire 7 plainFault 8192 20480 {}).map Prod.fst = some .invalidAddress := by
    decide
  rw [heq, Option.map_some, Option.some.injEq] at hrv
  dsimp only at hrv
  rw [hrv] at heq hfail
  exact ⟨m', heq, hquiet, hfail (by simp)⟩

/-- A page that may be read and, behind a hole, one that may not be accessed at all. -/
def unreadable : Map := sample.setEntry 1 { sample.entry 1 with protection := protNone }

/-- With holes allowed the page that may not be accessed is skipped, and the range
    cannot be unwired: the first page stays wired. -/
theorem unwire_refuses_what_was_skipped : Wf unreadable ∧ Ready unreadable ∧
      ∃ m', unreadable.wire 7 plainFault 8192 20480 { holesOk := true } = some (.success, m') ∧
        ∃ m'', m'.unwire 7 8192 20480 { holesOk := true } = some (.invalidArgument, m'') ∧
          m''.wiring 8192 ≠ unreadable.wiring 8192 := by
  have hwf : Wf unreadable := sample_wf.same (.setEntry sample rfl rfl)
  have hready : Ready unreadable := by
    have hall : ∀ i ∈ [0, 1], (pageSize ∣ (unreadable.entry i).start ∧
        pageSize ∣ (unreadable.entry i).stop) ∧ (unreadable.entry i).eflags.inTransition = false ∧
        (unreadable.entry i).eflags.wireSkipped = false ∧ (unreadable.entry i).wiringThread = none ∧
        (unreadable.entry i).wiring.count = 0 ∧ (unreadable.entry i).wiring.user = false := by
      decide
    refine ⟨fun i hi => (hall i hi).1, by decide, by decide, fun i hi => ?_, fun a x hx => ?_⟩
    · rcases hall i hi with ⟨-, h₁, h₂, h₃, -⟩
      exact ⟨h₁, h₂, h₃⟩
    rcases exists_of_wiring hx with ⟨i, hi, -, rfl⟩
    rcases hall i hi with ⟨-, -, -, -, hcount, huser⟩
    exact ⟨hcount.ge, fun hu => absurd (huser.symm.trans hu) (by simp), fun _ => rfl⟩
  refine ⟨hwf, hready, ?_⟩
  have hwire : ((unreadable.wire 7 plainFault 8192 20480 { holesOk := true }).bind fun p =>
      (p.2.unwire 7 8192 20480 { holesOk := true }).map fun q =>
        (p.1, q.1, q.2.wiring 8192)) = some (.success, .invalidArgument, some ⟨1, false, 3⟩) := by
    decide
  rcases Option.bind_eq_some_iff.mp hwire with ⟨⟨rv, m'⟩, h₁, h₂⟩
  rcases Option.map_eq_some_iff.mp h₂ with ⟨⟨rv', m''⟩, h₃, h₄⟩
  simp only [Prod.mk.injEq] at h₄
  rcases h₄ with ⟨hrv, hrv', hlook⟩
  rw [hrv] at h₁
  rw [hrv'] at h₃
  refine ⟨m', h₁, m'', h₃, ?_⟩
  rw [hlook]
  decide

end FreeBSDKern.VmMap
