import FreeBSDKern.VmMap.Wiring

/-!
# The Two Walks

What the two walks of wiring come to, for any turn and any way of settling that
touch only the entry they are given.

The first walk leaves behind it a stretch of marked entries. Of each it is known
how it relates to what was wired there before (`Marking`), and the second walk
turns that, entry by entry, into what is wired there in the end (`Finishing`).
Everything is said address by address, since the walks cut entries and merge them
again.

An entry that is given up may be merged with the one before it. It is never merged
with the one behind it that is still marked, because their flags differ.

## Main definitions

* `Contract`: What a pair of walks keeps to.
* `TurnOk`, `SettleOk`: What a turn and a way of settling have to do for it.

## Theorems

* `markLoop_spec`, `finishLoop_spec`: The two walks.
* `wireWith_spec`: Both of them.
-/

namespace FreeBSDKern.VmMap

open Lib

/-! ## The first walk -/

/-- What the first walk has come to: the entries `done` are marked, and `P` relates
    how each of their addresses was wired, and whether its page was, to the entry and
    the page now. Nothing else is changed. -/
structure Marking (P : Wiring → Bool → Entry → Bool → Prop) (thread : Nat) (m₀ m : Map)
    (lo hi : Nat) (pre done rest : List Nat) : Prop where
  wf : Wf m
  list : m.list = pre ++ done ++ rest
  minOffset : m.minOffset = m₀.minOffset
  maxOffset : m.maxOffset = m₀.maxOffset
  aligned : ∀ j ∈ m.list, Aligned (m.entry j)
  before : ∀ j ∈ pre, (m.entry j).stop ≤ lo
  behind : ∀ j ∈ done ++ rest, lo ≤ (m.entry j).start
  upto : ∀ j ∈ done, (m.entry j).stop ≤ hi
  quiet : ∀ j ∈ pre ++ rest, Unmarked (m.entry j)
  marked : ∀ j ∈ done, Map.marked thread (m.entry j) = true
  outside : ∀ a, (∀ j ∈ done, (m.entry j).contains a = false) →
    m.wiring a = m₀.wiring a ∧ m.wired a = m₀.wired a
  inside : ∀ j ∈ done, ∀ a, (m.entry j).contains a = true →
    ∃ x, m₀.wiring a = some x ∧ P x (m₀.wired a) (m.entry j) (m.wired a)

variable {m : Map} {i : Nat} {pre done rest : List Nat}

theorem contains_false_of_apart (h : Wf m) {j a : Nat} (hi : i ∈ m.list) (hj : j ∈ m.list)
    (hij : j ≠ i) (ha : (m.entry i).contains a = true) : (m.entry j).contains a = false := by
  rw [Bool.eq_false_iff]
  intro hc
  exact hij (h.laid.eq_of_contains hj hi (contains_iff.mp hc) (contains_iff.mp ha))

namespace Marking

variable {P Q : Wiring → Bool → Entry → Bool → Prop} {thread : Nat} {m₀ m m' : Map} {lo hi i : Nat}
  {pre done rest : List Nat}

theorem mono (h : Marking P thread m₀ m lo hi pre done rest)
    (hPQ : ∀ x w e w', P x w e w' → Q x w e w') : Marking Q thread m₀ m lo hi pre done rest where
  wf := h.wf
  list := h.list
  minOffset := h.minOffset
  maxOffset := h.maxOffset
  aligned := h.aligned
  before := h.before
  behind := h.behind
  upto := h.upto
  quiet := h.quiet
  marked := h.marked
  outside := h.outside
  inside j hj a ha := by
    rcases h.inside j hj a ha with ⟨x, hx, hP⟩
    exact ⟨x, hx, hPQ _ _ _ _ hP⟩

section

variable (h : Marking P thread m₀ m lo hi pre done (i :: rest))
include h

/-- The entry the walk has come to, and its place. -/
theorem split :
    m.list = (pre ++ done) ++ i :: rest ∧ i ∈ m.list ∧ i ∉ (pre ++ done) ++ rest := by
  refine ⟨h.list, by simp [h.list], notMem_rest ?_⟩
  rw [← h.list]
  exact h.wf.tree.nodup

/-- The entry the walk has come to is wired as it was. -/
theorem untouched {a : Nat}
    (ha : (m.entry i).contains a = true) :
    m₀.wiring a = some (m.entry i).wiring ∧ m₀.wired a = m.wired a := by
  rcases h.split with ⟨-, hi, hnot⟩
  have hout := h.outside a fun j hj => contains_false_of_apart h.wf hi (by simp [h.list, hj])
    (by rintro rfl; exact hnot (by simp [hj])) ha
  rw [← hout.1, ← hout.2]
  exact ⟨wiring_of_mem h.wf.laid hi ha, rfl⟩

/-- The entry the walk has come to is cut at the end of the range. -/
theorem clip (hlt : (m.entry i).start < hi) (hhi : pageSize ∣ hi) :
    ∃ rest', Marking P thread m₀ (m.clipEnd i hi) lo hi pre done (i :: rest') ∧
      ((m.clipEnd i hi).entry i).start = (m.entry i).start ∧ ((m.clipEnd i hi).entry i).stop ≤ hi ∧
      (rest' = rest ∨ ∃ n, rest' = n :: rest ∧ ((m.clipEnd i hi).entry n).start = hi) := by
  rcases h.split with ⟨hlist, hi', hnot⟩
  rcases clipEnd_spec h.wf hlist hlt with
    ⟨hsame, hle⟩ | ⟨hclip, hlist', hstart, hstop, hnew, hnewStop⟩
  · rw [hsame]
    exact ⟨rest, h, rfl, hle, .inl rfl⟩
  set m₁ := m.clipEnd i hi with hm₁
  have hother : ∀ j, j ∈ (pre ++ done) ++ rest → m₁.entry j = m.entry j := by
    intro j hj
    refine hclip.other j ?_ ?_
    · rintro rfl
      exact hnot hj
    rintro rfl
    refine fresh_notMem h.wf ?_
    rw [h.list]
    simp only [List.mem_append, List.mem_cons] at hj ⊢
    exact hj.imp_right .inr
  have hkept : ∀ {p : Entry → Prop}, p (m₁.entry i) → p (m₁.entry m.fresh) →
      (∀ j ∈ (pre ++ done) ++ rest, p (m.entry j)) → ∀ j ∈ m₁.list, p (m₁.entry j) := by
    intro p hpi hpn hp j hj
    rw [hlist'] at hj
    simp only [List.mem_append, List.mem_cons] at hj
    by_cases hji : j = i
    · rwa [hji]
    by_cases hjn : j = m.fresh
    · rwa [hjn]
    have hj' : j ∈ (pre ++ done) ++ rest := by
      simp only [List.mem_append]
      exact hj.imp_right fun hj => (hj.resolve_left hji).resolve_left hjn
    rw [hother j hj']
    exact hp j hj'
  have hpage := h.aligned i hi'
  have hquiet := h.quiet i (by simp)
  refine ⟨m.fresh :: rest,
    { wf := hclip.wf, list := hlist', minOffset := hclip.minOffset.trans h.minOffset,
      maxOffset := hclip.maxOffset.trans h.maxOffset, aligned := ?_, before := ?_, behind := ?_,
      upto := ?_, quiet := ?_, marked := ?_, outside := ?_, inside := ?_ }, hstart, hstop.le,
    .inr ⟨m.fresh, rfl, hnew⟩⟩
  · refine hkept ?_ ?_ fun j hj => h.aligned j ?_
    · rw [Aligned, hstart, hstop]
      exact ⟨hpage.1, hhi⟩
    · rw [Aligned, hnew, hnewStop]
      exact ⟨hhi, hpage.2⟩
    rw [h.list]
    simp only [List.mem_append, List.mem_cons] at hj ⊢
    exact hj.imp_right .inr
  · intro j hj
    rw [hother j (by simp [hj])]
    exact h.before j hj
  · have hlo := h.behind i (by simp)
    intro j hj
    simp only [List.mem_append, List.mem_cons] at hj
    rcases hj with hj | hj | hj | hj
    · rw [hother j (by simp [hj])]
      exact h.behind j (by simp [hj])
    · rw [hj, hstart]
      exact hlo
    · rw [hj, hnew]
      omega
    · rw [hother j (by simp [hj])]
      exact h.behind j (by simp [hj])
  · intro j hj
    rw [hother j (by simp [hj])]
    exact h.upto j hj
  · intro j hj
    simp only [List.mem_append, List.mem_cons] at hj
    rcases hj with hj | hj | hj | hj
    · rw [hother j (by simp [hj])]
      exact h.quiet j (by simp [hj])
    · rw [hj]
      exact hquiet.copy hclip.self
    · rw [hj]
      exact hquiet.copy hclip.new
    · rw [hother j (by simp [hj])]
      exact h.quiet j (by simp [hj])
  · intro j hj
    rw [hother j (by simp [hj])]
    exact h.marked j hj
  · intro a ha
    have hwiring : m₁.wiring a = m.wiring a := (hclip.look a).wiring
    rw [hwiring, hclip.wired]
    refine h.outside a fun j hj => ?_
    have := ha j hj
    rwa [hother j (by simp [hj])] at this
  intro j hj a ha
  rw [hother j (by simp [hj])] at ha ⊢
  rw [hclip.wired]
  exact h.inside j hj a ha

/-- The entry the walk has come to is marked and dealt with. -/
theorem turn (ht : Turned m m' i)
    (hle : (m.entry i).stop ≤ hi) (hmark : Map.marked thread (m'.entry i) = true)
    (hP : ∀ a, (m.entry i).contains a = true →
      P (m.entry i).wiring (m.wired a) (m'.entry i) (m'.wired a)) :
    Marking P thread m₀ m' lo hi pre (done ++ [i]) rest := by
  rcases h.split with ⟨hlist, hi', hnot⟩
  have hother : ∀ j, j ∈ (pre ++ done) ++ rest → m'.entry j = m.entry j := by
    intro j hj
    refine ht.other j ?_
    rintro rfl
    exact hnot hj
  have hdone : ∀ j ∈ done ++ [i], j ≠ i → j ∈ done := by
    intro j hj hji
    simpa [hji] using hj
  refine
    { wf := ht.wf, list := by rw [ht.list, hlist]; simp,
      minOffset := ht.minOffset.trans h.minOffset, maxOffset := ht.maxOffset.trans h.maxOffset,
      aligned := fun j hj => ht.aligned (h.aligned j (ht.list ▸ hj)), before := ?_,
      behind := ?_, upto := ?_, quiet := ?_, marked := ?_, outside := ?_, inside := ?_ }
  · intro j hj
    rw [hother j (by simp [hj])]
    exact h.before j hj
  · intro j hj
    by_cases hji : j = i
    · rw [hji, ht.start]
      exact h.behind i (by simp)
    have hj' : j ∈ done ++ rest := by simpa [hji] using hj
    rw [hother j (by simpa using .inr (List.mem_append.mp hj'))]
    refine h.behind j ?_
    simp only [List.mem_append, List.mem_cons] at hj' ⊢
    exact hj'.imp_right .inr
  · intro j hj
    by_cases hji : j = i
    · rw [hji, ht.stop]
      exact hle
    · rw [hother j (by simp [hdone j hj hji])]
      exact h.upto j (hdone j hj hji)
  · intro j hj
    rcases List.mem_append.mp hj with hj | hj
    · rw [hother j (by simp [hj])]
      exact h.quiet j (by simp [hj])
    · rw [hother j (by simp [hj])]
      exact h.quiet j (by simp [hj])
  · intro j hj
    by_cases hji : j = i
    · rwa [hji]
    · rw [hother j (by simp [hdone j hj hji])]
      exact h.marked j (hdone j hj hji)
  · intro a ha
    have hself : (m.entry i).contains a = false := by
      rw [← ht.contains]
      exact ha i (by simp)
    rw [ht.wiring h.wf hself, ht.wired a hself]
    refine h.outside a fun j hj => ?_
    rw [← ht.contains]
    exact ha j (by simp [hj])
  intro j hj a ha
  rw [ht.contains] at ha
  by_cases hji : j = i
  · rw [hji] at ha ⊢
    rcases h.untouched ha with ⟨hx, hw⟩
    rw [hw]
    exact ⟨_, hx, hP a ha⟩
  have hj' := hdone j hj hji
  have hself := contains_false_of_apart h.wf (i := j) (by simp [h.list, hj']) hi'
    (Ne.symm hji) ha
  rw [hother j (by simp [hj']), ht.wired a hself]
  exact h.inside j hj' a ha

end

end Marking

/-- Where an entry ends and the range goes on, there is a hole or there is not. -/
theorem holeBehind_iff (h : Wf m) {post : List Nat} {hi : Nat} (hlist : m.list = pre ++ i :: post) :
    m.holeBehind i hi = true ↔ (m.entry i).stop < hi ∧ m.wiring (m.entry i).stop = none := by
  have hi' : i ∈ m.list := by simp [hlist]
  have hlist' : m.list = (pre ++ [i]) ++ post := by simpa using hlist
  rw [Map.holeBehind, Bool.and_eq_true, decide_eq_true_iff, next?_of_split h.tree.nodup hlist]
  refine and_congr_right fun _ => ?_
  -- An entry with the address is not in front, so it is the one behind.
  have hnone : m.wiring (m.entry i).stop = none ↔
      ∀ j ∈ post, (m.entry j).contains (m.entry i).stop = false := by
    constructor
    · intro hn j hj
      rw [Bool.eq_false_iff]
      intro hc
      rw [wiring_of_mem h.laid (i := j) (by simp [hlist, hj]) hc] at hn
      cases hn
    intro hall
    cases hw : m.wiring (m.entry i).stop with
    | none => rfl
    | some x =>
      rcases exists_of_wiring hw with ⟨j, hj, hc, -⟩
      rw [hlist', List.mem_append] at hj
      rcases hj with hj | hj
      · have := h.laid.before_of_split hlist (le_refl _) j hj
        have := contains_iff.mp hc
        omega
      · rw [hall j hj] at hc
        cases hc
  rw [hnone]
  cases post with
  | nil => simp
  | cons n post =>
    have hn := (h.laid.around hlist).2 n (by simp)
    have hnne := h.laid.nonempty n (by simp [hlist])
    show decide _ = true ↔ _
    rw [decide_eq_true_iff]
    constructor
    · intro hlt j hj
      have hl : m.list = (pre ++ [i]) ++ n :: post := by simpa using hlist
      have := h.laid.behind_of_split hl (Nat.succ_le_of_lt hlt) j hj
      rw [Bool.eq_false_iff]
      intro hc
      have := contains_iff.mp hc
      omega
    intro hall
    have hfalse := hall n (by simp)
    rw [Entry.contains, Bool.and_eq_false_iff, decide_eq_false_iff_not,
      decide_eq_false_iff_not] at hfalse
    omega

/-- What a pair of walks keeps to. `base` is what holds of how an address was wired
    and whether its page was; `good` and `bad` relate that to a marked entry and the
    page, when the walk goes on and when it stops; `fatal` says of how an entry was
    wired that it can make the walk stop; and `ends` is what comes of an address in the
    end, for each code returned. -/
structure Contract where
  base : Wiring → Bool → Prop
  good : Wiring → Bool → Entry → Bool → Prop
  bad : Wiring → Bool → Entry → Bool → Prop
  fatal : Wiring → Prop
  ends : Kern → Wiring → Bool → Wiring → Bool → Prop

/-- What is known of the marked entries when the first walk has returned a code. -/
def Contract.mark (c : Contract) (rv : Kern) : Wiring → Bool → Entry → Bool → Prop :=
  if rv = .success then c.good else c.bad

/-- What a turn does with a marked entry: it touches nothing else, goes on only where
    there is no hole, and stops only at a hole or for a reason. -/
structure Turning (c : Contract) (thread hi : Nat) (holesOk : Bool) (w : Walk) (i : Nat)
    (t : Turn) : Prop where
  entry : t.entry = i
  turned : Turned w.map t.walk.map i
  marked : Map.marked thread (t.walk.map.entry i) = true
  first : t.walk.first = w.first ∨ t.walk.first = none
  goOn : t.stop = none → (holesOk = false → t.walk.map.holeBehind i hi = false) ∧
    ∀ a, (w.map.entry i).contains a = true →
      c.good (w.map.entry i).wiring (w.map.wired a) (t.walk.map.entry i) (t.walk.map.wired a)
  halt : ∀ rv, t.stop = some rv → rv ≠ .success ∧
    (holesOk = false ∧ t.walk.map.holeBehind i hi = true ∨ c.fatal (w.map.entry i).wiring) ∧
    ∀ a, (w.map.entry i).contains a = true →
      c.bad (w.map.entry i).wiring (w.map.wired a) (t.walk.map.entry i) (t.walk.map.wired a)

/-- Every turn at an entry that has just been marked is such a turn. -/
def TurnOk (c : Contract) (thread hi : Nat) (holesOk : Bool) (turn : Walk → Nat → Option Turn) :
    Prop :=
  ∀ w i, Wf w.map → i ∈ w.map.list → Aligned (w.map.entry i) →
    Map.marked thread (w.map.entry i) = true → (w.map.entry i).eflags.wireSkipped = false →
    (∀ a, (w.map.entry i).contains a = true → c.base (w.map.entry i).wiring (w.map.wired a)) →
    ∃ t, turn w i = some t ∧ Turning c thread hi holesOk w i t

/-- There is no hole from the start of the range up to `edge`, and none there unless
    the range ends. -/
def Solid (m₀ m : Map) (lo hi edge : Nat) (rest : List Nat) : Prop :=
  (∀ a, lo ≤ a → a < edge → (m₀.wiring a).isSome) ∧
    (hi ≤ edge ∨ ∃ i, rest.head? = some i ∧ (m.entry i).start ≤ edge)

/-- What the first walk comes to when it returns `rv` and has the range end at `stop`. -/
structure Stopped (c : Contract) (thread : Nat) (holesOk : Bool) (m₀ : Map) (lo hi : Nat)
    (rv : Kern) (stop : Nat) (w : Walk) (pre done rest : List Nat) : Prop where
  marking : Marking (c.mark rv) thread m₀ w.map lo hi pre done rest
  first : w.first = none ∨ w.first = (done ++ rest).head?
  ahead : ∀ j ∈ done, (w.map.entry j).start < stop
  behind : ∀ j ∈ rest, stop ≤ (w.map.entry j).start
  success : rv = .success → stop = hi ∧
    (holesOk = false → ∀ a, lo ≤ a → a < hi → (m₀.wiring a).isSome)
  failure : rv ≠ .success → (holesOk = false ∧ ∃ a, lo ≤ a ∧ a < hi ∧ m₀.wiring a = none) ∨
      ∃ a x, lo ≤ a ∧ a < hi ∧ m₀.wiring a = some x ∧ c.fatal x

section mark

variable {c : Contract} {thread lo hi : Nat} {holesOk : Bool} {turn : Walk → Nat → Option Turn}
  {m₀ : Map}

/-- The mark itself. -/
theorem markEntry_turned (h : Wf m) (thread i : Nat) :
    Turned m (m.markEntry thread i) i ∧ Map.marked thread ((m.markEntry thread i).entry i) = true ∧
      ((m.markEntry thread i).entry i).wiring = (m.entry i).wiring ∧
      ((m.markEntry thread i).entry i).eflags.wireSkipped = (m.entry i).eflags.wireSkipped := by
  have hself : (m.markEntry thread i).entry i = { m.entry i with
      eflags := { (m.entry i).eflags with inTransition := true }, wiringThread := some thread } :=
    setEntry_entry_self ..
  rw [hself]
  exact ⟨.setEntry h rfl rfl rfl, by simp [Map.marked], rfl, rfl⟩

/-- One turn of the first walk. -/
theorem mark_turn (hturn : TurnOk c thread hi holesOk turn)
    (hbase : ∀ a x, m₀.wiring a = some x → c.base x (m₀.wired a)) {w : Walk}
    (h : Marking c.good thread m₀ w.map lo hi pre done (i :: rest))
    (hle : (w.map.entry i).stop ≤ hi) :
    ∃ t, turn { w with map := w.map.markEntry thread i } i = some t ∧ t.entry = i ∧
      Turned w.map t.walk.map i ∧ (t.walk.first = w.first ∨ t.walk.first = none) ∧
      (t.stop = none → (holesOk = false → t.walk.map.holeBehind i hi = false) ∧
        Marking c.good thread m₀ t.walk.map lo hi pre (done ++ [i]) rest) ∧
      ∀ rv, t.stop = some rv → rv ≠ .success ∧
        (holesOk = false ∧ t.walk.map.holeBehind i hi = true ∨ c.fatal (w.map.entry i).wiring) ∧
        ((∀ x w e w', c.good x w e w' → c.bad x w e w') →
          Marking c.bad thread m₀ t.walk.map lo hi pre (done ++ [i]) rest) := by
  rcases h.split with ⟨-, hi', -⟩
  rcases markEntry_turned h.wf thread i with ⟨hmark, hmarked, hwiring, hskip⟩
  set m₁ := w.map.markEntry thread i
  have hentry : Aligned (m₁.entry i) := hmark.aligned (h.aligned i hi')
  have hskipped : (m₁.entry i).eflags.wireSkipped = false := by
    rw [hskip]
    exact (h.quiet i (by simp)).wireSkipped
  have hwired : m₁.wired = w.map.wired := rfl
  rcases hturn { w with map := m₁ } i hmark.wf (hmark.list ▸ hi') hentry hmarked hskipped (by
    intro a ha
    show c.base (m₁.entry i).wiring (m₁.wired a)
    rw [hwiring, hwired]
    rw [hmark.contains] at ha
    rcases h.untouched ha with ⟨hx, hw⟩
    rw [← hw]
    exact hbase a _ hx) with ⟨t, heq, ht⟩
  have hturned := hmark.trans ht.turned
  have hcontains : ∀ a, (m₁.entry i).contains a = (w.map.entry i).contains a :=
    fun a => hmark.contains i a
  have hgo := ht.goOn
  have hhalt := ht.halt
  simp only [hwiring, hwired, hcontains] at hgo hhalt
  refine ⟨t, heq, ht.entry, hturned, ht.first, fun hstop => ⟨(hgo hstop).1, ?_⟩, fun rv hrv => ?_⟩
  · exact h.turn hturned hle ht.marked (hgo hstop).2
  · rcases hhalt rv hrv with ⟨hne, hwhy, hbad⟩
    exact ⟨hne, hwhy, fun hmono => (h.mono hmono).turn hturned hle ht.marked hbad⟩

/-- Up to the end of an entry behind which there is no hole there is none. -/
theorem Solid.next {P : Wiring → Bool → Entry → Bool → Prop} {m' : Map} {edge : Nat}
    {rest' : List Nat} (hs : Solid m₀ m lo hi edge (i :: rest))
    (h : Marking P thread m₀ m' lo hi pre (done ++ [i]) rest')
    (hstart : (m'.entry i).start = (m.entry i).start) (hhole : m'.holeBehind i hi = false) :
    Solid m₀ m' lo hi (m'.entry i).stop rest' := by
  have hlist : m'.list = (pre ++ done) ++ i :: rest' := by rw [h.list]; simp
  constructor
  · intro a h₁ h₂
    rcases lt_or_ge a edge with hlt | hge
    · exact hs.1 a h₁ hlt
    have hle := h.upto i (by simp)
    have hedge : (m'.entry i).start ≤ edge := by
      rcases hs.2 with hedge | ⟨j, hj, hedge⟩
      · omega
      · cases hj
        omega
    rcases h.inside i (by simp) a (contains_iff.mpr ⟨by omega, h₂⟩) with ⟨x, hx, -⟩
    rw [hx]
    rfl
  rcases lt_or_ge (m'.entry i).stop hi with hlt | hge
  · right
    have hsome : m'.wiring (m'.entry i).stop ≠ none := by
      intro hnone
      rw [(holeBehind_iff h.wf hlist).mpr ⟨hlt, hnone⟩] at hhole
      cases hhole
    rcases Option.ne_none_iff_exists'.mp hsome with ⟨x, hx⟩
    rcases exists_of_wiring hx with ⟨j, hj, hc, -⟩
    have hjc := contains_iff.mp hc
    have hj' : j ∈ rest' := by
      have hl : m'.list = ((pre ++ done) ++ [i]) ++ rest' := by simp [hlist]
      rw [hl, List.mem_append] at hj
      rcases hj with hj | hj
      · have := h.wf.laid.before_of_split hlist (le_refl _) j hj
        omega
      · exact hj
    cases rest' with
    | nil => cases hj'
    | cons n rest' =>
      have hl : m'.list = ((pre ++ done) ++ [i]) ++ n :: rest' := by simp [hlist]
      have := h.wf.laid.behind_of_split hl (le_refl _) j hj'
      exact ⟨n, rfl, by omega⟩
  · exact .inl hge

/-- Where the walk stops, for what it says. -/
theorem Marking.stopped {w : Walk} {rv : Kern}
    (h : Marking c.bad thread m₀ w.map lo hi pre (done ++ [i]) rest) (hne : rv ≠ .success)
    (hfirst : w.first = none ∨ w.first = (done ++ [i] ++ rest).head?)
    (hlt : (w.map.entry i).start < hi) (hwhy : holesOk = false ∧ w.map.holeBehind i hi = true ∨
      ∃ x, m₀.wiring (w.map.entry i).start = some x ∧ c.fatal x) :
    Stopped c thread holesOk m₀ lo hi rv (w.map.entry i).stop w pre (done ++ [i]) rest := by
  have hlist : w.map.list = (pre ++ done) ++ i :: rest := by rw [h.list]; simp
  have hi' : i ∈ w.map.list := by simp [hlist]
  have hlo := h.behind i (by simp)
  have hstop := h.wf.laid.nonempty i hi'
  refine ⟨by rw [Contract.mark, if_neg hne]; exact h, hfirst, fun j hj => ?_, fun j hj => ?_,
    fun hs => absurd hs hne, fun _ => ?_⟩
  · have hj' := h.wf.laid.before_of_split hlist (le_refl _) j (by
      rw [List.append_assoc]
      exact List.mem_append_right pre hj)
    have := h.wf.laid.nonempty j (by
      rw [h.list]
      exact List.mem_append_left _ (List.mem_append_right _ hj))
    omega
  · exact (h.wf.laid.around hlist).2 j hj
  rcases hwhy with ⟨hno, hhole⟩ | ⟨x, hx, hfatal⟩
  · rcases (holeBehind_iff h.wf hlist).mp hhole with ⟨hend, hnone⟩
    refine .inl ⟨hno, _, by omega, hend, ?_⟩
    rw [← (h.outside _ fun j hj => ?_).1]
    · exact hnone
    rw [Bool.eq_false_iff]
    intro hc
    have hj' : j ∈ w.map.list := by
      rw [h.list]
      exact List.mem_append_left _ (List.mem_append_right _ hj)
    rw [wiring_of_mem h.wf.laid hj' hc] at hnone
    cases hnone
  · exact .inr ⟨_, x, hlo, hlt, hx, hfatal⟩

/-- The first walk marks the range up to its end, or up to where it has to stop. -/
theorem markLoop_spec (hturn : TurnOk c thread hi holesOk turn) (hhi : pageSize ∣ hi)
    (hmono : ∀ x w e w', c.good x w e w' → c.bad x w e w')
    (hbase : ∀ a x, m₀.wiring a = some x → c.base x (m₀.wired a)) :
    ∀ {fuel : Nat} {w : Walk} {done rest : List Nat} {edge : Nat},
      Marking c.good thread m₀ w.map lo hi pre done rest →
      (rest.length < fuel ∨ 0 < fuel ∧ ∀ j ∈ rest, hi ≤ (w.map.entry j).start) →
      (w.first = none ∨ w.first = (done ++ rest).head?) → (∀ j ∈ done, (w.map.entry j).start < hi) →
      (holesOk = false → Solid m₀ w.map lo hi edge rest) → ∃ rv stop w' done' rest',
        Map.markLoop thread turn lo hi fuel w rest.head? = some (rv, stop, w') ∧
          Stopped c thread holesOk m₀ lo hi rv stop w' pre done' rest' := by
  intro fuel
  induction fuel with
  | zero => intro w done rest edge _ hfuel; omega
  | succ fuel ih =>
    intro w done rest edge h hfuel hfirst hahead hsolid
    -- The walk ends with the range.
    have hend : (∀ j ∈ rest, hi ≤ (w.map.entry j).start) →
        Stopped c thread holesOk m₀ lo hi .success hi w pre done rest := by
      intro hbehind
      refine ⟨by rw [Contract.mark, if_pos rfl]; exact h, hfirst, hahead, hbehind,
        fun _ => ⟨rfl, fun hno a h₁ h₂ => ?_⟩, fun hne => absurd rfl hne⟩
      rcases hsolid hno with ⟨hmapped, hedge | ⟨i, hi', hedge⟩⟩
      · exact hmapped a h₁ (by omega)
      · have := hbehind i (List.mem_of_mem_head? hi')
        exact hmapped a h₁ (by omega)
    cases rest with
    | nil => exact ⟨.success, hi, w, done, [], rfl, hend (by simp)⟩
    | cons i rest =>
      rw [List.head?_cons, Map.markLoop]
      split
      case isFalse hge =>
        refine ⟨.success, hi, w, done, i :: rest, rfl, hend ?_⟩
        exact h.wf.laid.behind_of_split h.split.1 (not_lt.mp hge)
      case isTrue hlt =>
      have hquiet := h.quiet i (by simp)
      have hbehind := h.behind i (by simp)
      rw [if_neg (by simp [hquiet.inTransition])]
      have hclipStart : w.map.clipStart i lo = w.map := by
        rw [Map.clipStart, if_neg]
        omega
      rcases h.clip hlt hhi with ⟨rest₁, h₁, hstart₁, hstop₁, hrest₁⟩
      dsimp only
      rw [hclipStart]
      rcases mark_turn (w := { w with map := w.map.clipEnd i hi }) hturn hbase h₁ hstop₁ with
        ⟨⟨stop, w₁, j⟩, heq, hentry, hturned, hfirst₁, hgo, hhalt⟩
      rw [heq]
      dsimp only at hentry hturned hfirst₁ hgo hhalt
      rw [hentry]
      have hstart : (w₁.map.entry i).start = (w.map.entry i).start :=
        hturned.start.trans hstart₁
      have hhead : w₁.first = none ∨ w₁.first = (done ++ [i] ++ rest₁).head? := by
        have hsame : (done ++ [i] ++ rest₁).head? = (done ++ i :: rest).head? := by
          cases done <;> rfl
        rw [hsame]
        rcases hfirst₁ with hf | hf
        · exact hf ▸ hfirst
        · exact .inl hf
      cases stop with
      | some rv =>
        rcases hhalt rv rfl with ⟨hne, hwhy, hmark⟩
        refine ⟨rv, _, w₁, done ++ [i], rest₁, rfl, (hmark hmono).stopped hne hhead (by omega) ?_⟩
        refine hwhy.imp_right fun hfatal => ⟨_, ?_, hfatal⟩
        rw [hturned.start]
        refine (h₁.untouched (contains_iff.mpr ⟨le_refl _, ?_⟩)).1
        exact h₁.wf.laid.nonempty i h₁.split.2.1
      | none =>
        rcases hgo rfl with ⟨hhole, hmark⟩
        have hlist₁ : w₁.map.list = (pre ++ done) ++ i :: rest₁ := by rw [hmark.list]; simp
        have hlist₁' : w₁.map.list = ((pre ++ done) ++ [i]) ++ rest₁ := by simp [hlist₁]
        dsimp only
        rw [next?_of_split hmark.wf.tree.nodup hlist₁]
        have hsolid₁ : holesOk = false → Solid m₀ w₁.map lo hi (w₁.map.entry i).stop rest₁ :=
          fun hno => (hsolid hno).next hmark hstart (hhole hno)
        refine ih hmark ?_ hhead (fun k hk => ?_) hsolid₁
        · have hlen : rest.length < fuel := by
            rcases hfuel with hfuel | ⟨-, hfar⟩
            · simpa using hfuel
            · have := hfar i (by simp)
              omega
          rcases hrest₁ with hsame | ⟨n, hnew, hn⟩
          · exact .inl (hsame ▸ hlen)
          -- What was cut off begins where the range ends.
          refine .inr ⟨by omega, ?_⟩
          rw [hnew] at hlist₁' ⊢
          refine hmark.wf.laid.behind_of_split hlist₁' ?_
          have hni : n ≠ i := by
            rintro rfl
            omega
          rw [hturned.other n hni, hn]
        rcases List.mem_append.mp hk with hk | hk
        · have := (hmark.wf.laid.around hlist₁).1 k (by simp [hk])
          have := hmark.wf.laid.nonempty k (by simp [hlist₁, hk])
          omega
        · rw [List.mem_singleton.mp hk]
          omega

end mark

/-! ## The second walk -/

/-- What settling a marked entry comes to: it touches nothing else and gives the entry
    up, and what was known of the entry becomes what is wired in the end. -/
def SettleOk (c : Contract) (thread : Nat) (rv : Kern) (settle : Map → Nat → Map) : Prop :=
  ∀ m i, Wf m → i ∈ m.list → Map.marked thread (m.entry i) = true → Turned m (settle m i) i ∧
      ∀ a x w, (m.entry i).contains a = true → c.mark rv x w (m.entry i) (m.wired a) →
        Unmarked ((settle m i).entry i) ∧
          c.ends rv x w ((settle m i).entry i).wiring ((settle m i).wired a)

/-- What the second walk has come to: the entries `todo` are still marked, and the
    other addresses of `scope`, which all were, are settled. -/
structure Finishing (c : Contract) (thread : Nat) (rv : Kern) (scope : Nat → Prop) (m₀ m : Map)
    (front todo rest : List Nat) : Prop where
  wf : Wf m
  list : m.list = front ++ (todo ++ rest)
  minOffset : m.minOffset = m₀.minOffset
  maxOffset : m.maxOffset = m₀.maxOffset
  aligned : ∀ j ∈ m.list, Aligned (m.entry j)
  quiet : ∀ j ∈ front ++ rest, Unmarked (m.entry j)
  marked : ∀ j ∈ todo, Map.marked thread (m.entry j) = true
  outside : ∀ a, ¬scope a → m.wiring a = m₀.wiring a ∧ m.wired a = m₀.wired a
  settled : ∀ a, scope a → (∀ j ∈ todo, (m.entry j).contains a = false) →
    ∃ x y, m₀.wiring a = some x ∧ m.wiring a = some y ∧ c.ends rv x (m₀.wired a) y (m.wired a)
  inside : ∀ j ∈ todo, ∀ a, (m.entry j).contains a = true →
    scope a ∧ ∃ x, m₀.wiring a = some x ∧ c.mark rv x (m₀.wired a) (m.entry j) (m.wired a)

section finish

variable {c : Contract} {thread : Nat} {rv : Kern} {scope : Nat → Prop} {settle : Map → Nat → Map}
  {m₀ m m' : Map} {i : Nat} {front todo rest : List Nat}

namespace Finishing

/-- An entry is settled. -/
theorem settleOne (h : Finishing c thread rv scope m₀ m front (i :: todo) rest)
    (hset : SettleOk c thread rv settle) : Turned m (settle m i) i ∧
      Finishing c thread rv scope m₀ (settle m i) (front ++ [i]) todo rest := by
  have hi' : i ∈ m.list := by simp [h.list]
  have hnodup : (front ++ i :: (todo ++ rest)).Nodup := by
    have := h.wf.tree.nodup
    rwa [h.list] at this
  have hnot := notMem_rest hnodup
  rcases hset m i h.wf hi' (h.marked i (by simp)) with ⟨ht, hends⟩
  have hother : ∀ j ∈ front ++ (todo ++ rest), (settle m i).entry j = m.entry j := by
    intro j hj
    refine ht.other j ?_
    rintro rfl
    exact hnot hj
  have hself : ∀ a, (m.entry i).contains a = true → ∃ x, m₀.wiring a = some x ∧
      Unmarked ((settle m i).entry i) ∧
        c.ends rv x (m₀.wired a) ((settle m i).entry i).wiring ((settle m i).wired a) := by
    intro a ha
    rcases h.inside i (by simp) a ha with ⟨-, x, hx, hmark⟩
    exact ⟨x, hx, hends a x _ ha hmark⟩
  refine ⟨ht, ht.wf, by rw [ht.list, h.list]; simp, ht.minOffset.trans h.minOffset,
    ht.maxOffset.trans h.maxOffset, fun j hj => ht.aligned (h.aligned j (ht.list ▸ hj)), ?_, ?_, ?_,
    ?_, ?_⟩
  · intro j hj
    by_cases hji : j = i
    · rcases hself _ (contains_iff.mpr ⟨le_refl _, h.wf.laid.nonempty i hi'⟩) with ⟨-, -, hq, -⟩
      rwa [hji]
    have hj' : j ∈ front ++ rest := by simpa [hji] using hj
    rw [hother j (by
      simp only [List.mem_append] at hj' ⊢
      exact hj'.imp_right .inr)]
    refine h.quiet j hj'
  · intro j hj
    rw [hother j (by simp [hj])]
    exact h.marked j (by simp [hj])
  · intro a ha
    have hout : (m.entry i).contains a = false := by
      rw [Bool.eq_false_iff]
      exact fun hc => ha (h.inside i (by simp) a hc).1
    rw [ht.wiring h.wf hout, ht.wired a hout]
    exact h.outside a ha
  · intro a ha htodo
    by_cases hin : (m.entry i).contains a = true
    · rcases hself a hin with ⟨x, hx, -, hend⟩
      refine ⟨x, _, hx, ?_, hend⟩
      exact wiring_of_mem ht.wf.laid (ht.list ▸ hi') (by rw [ht.contains, hin])
    have hout := Bool.eq_false_iff.mpr hin
    rw [ht.wiring h.wf hout, ht.wired a hout]
    refine h.settled a ha fun j hj => ?_
    rcases List.mem_cons.mp hj with hj | hj
    · rw [hj, hout]
    · rw [← ht.contains]
      exact htodo j hj
  intro j hj a ha
  have hji : j ≠ i := by
    rintro rfl
    exact hnot (by simp [hj])
  rw [ht.contains] at ha
  have hout := contains_false_of_apart h.wf (i := j) (by simp [h.list, hj]) hi' (Ne.symm hji) ha
  rw [hother j (by simp [hj]), ht.wired a hout]
  exact h.inside j (by simp [hj]) a ha

/-- The settled entry is merged with its neighbours, but not with one that is still
    marked. -/
theorem simplify (h : Finishing c thread rv scope m₀ m (front ++ [i]) todo rest) :
    ∃ front' rest', Finishing c thread rv scope m₀ (m.simplifyEntry i) (front' ++ [i]) todo rest' ∧
      rest'.Sublist rest ∧ ∀ j ∈ todo ++ rest', (m.simplifyEntry i).entry j = m.entry j := by
  have hlist : m.list = front ++ i :: (todo ++ rest) := by rw [h.list]; simp
  rcases simplifyEntry_spec h.wf hlist with ⟨front', post', e, hsimp⟩
  have hi' : i ∈ m.list := by simp [hlist]
  have hqi := h.quiet i (by simp)
  -- The entry behind is merged only when no marked one is left.
  have hpost : ∃ rest', post' = todo ++ rest' ∧ rest'.Sublist rest := by
    rcases hsimp.back with hback | ⟨n, hback, halike⟩
    · exact ⟨rest, hback, List.Sublist.refl _⟩
    cases todo with
    | nil =>
      rw [List.nil_append] at hback
      exact ⟨post', rfl, hback ▸ List.sublist_cons_self n post'⟩
    | cons k todo =>
      exfalso
      cases hback
      have hk := marked_iff.mp (h.marked n (by simp))
      have hflags := congrArg Eflags.inTransition halike.eflags
      rw [hk.1, hqi.inTransition] at hflags
      cases hflags
  rcases hpost with ⟨rest', rfl, hsub⟩
  have hl : (m.simplifyEntry i).list = front' ++ i :: (todo ++ rest') := hsimp.reshaped.list_eq
  have hnodup : (front' ++ i :: (todo ++ rest')).Nodup := hl ▸ hsimp.wf.tree.nodup
  have hnot := notMem_rest hnodup
  have hother : ∀ j ∈ front' ++ (todo ++ rest'), (m.simplifyEntry i).entry j = m.entry j := by
    intro j hj
    refine hsimp.other ?_
    rintro rfl
    exact hnot hj
  have hwired : (m.simplifyEntry i).wired = m.wired := by
    rcases hsimp.reshaped with ⟨adj, t, b, hre⟩
    rw [hre]
    rfl
  have hwiring : ∀ a, (m.simplifyEntry i).wiring a = m.wiring a := by
    intro a
    rw [Map.wiring, hsimp.look, Map.wiring]
  have hfront : ∀ j ∈ front', j ∈ front := by
    intro j hj
    rcases hsimp.front with hf | ⟨p, hf, -⟩
    · exact hf ▸ hj
    · rw [hf]
      exact List.mem_append_left _ hj
  have hmin : (m.simplifyEntry i).minOffset = m.minOffset ∧
      (m.simplifyEntry i).maxOffset = m.maxOffset := by
    rcases hsimp.reshaped with ⟨adj, t, b, hre⟩
    rw [hre]
    exact ⟨rfl, rfl⟩
  refine ⟨front', rest', ⟨hsimp.wf, by simpa using hl, hmin.1.trans h.minOffset,
    hmin.2.trans h.maxOffset, hsimp.aligned h.wf hlist h.aligned, ?_, ?_, ?_, ?_, ?_⟩, hsub,
    fun j hj => hother j (List.mem_append_right _ hj)⟩
  · intro j hj
    by_cases hji : j = i
    · rw [hji, hsimp.self, hsimp.kept]
      exact ⟨hqi.inTransition, hqi.wireSkipped, hqi.wiringThread⟩
    rw [hsimp.other hji]
    refine h.quiet j ?_
    simp only [List.mem_append, List.mem_singleton] at hj ⊢
    rcases hj with (hj | hj) | hj
    · exact .inl (.inl (hfront j hj))
    · exact absurd hj hji
    · exact .inr (hsub.subset hj)
  · intro j hj
    rw [hother j (by simp [hj])]
    exact h.marked j hj
  · intro a ha
    rw [hwiring, hwired]
    exact h.outside a ha
  · intro a ha htodo
    rw [hwiring, hwired]
    refine h.settled a ha fun j hj => ?_
    rw [← hother j (by simp [hj])]
    exact htodo j hj
  intro j hj a ha
  rw [hother j (by simp [hj])] at ha ⊢
  rw [hwired]
  exact h.inside j hj a ha

end Finishing

/-- The second walk settles every marked entry. -/
theorem finishLoop_spec {own : Entry → Bool} (hown : ∀ e, Map.marked thread e = true → own e = true)
    (hset : SettleOk c thread rv settle) (stop : Nat) :
    ∀ {fuel : Nat} {m : Map} {front todo rest : List Nat},
      Finishing c thread rv scope m₀ m front todo rest → (todo ++ rest).length < fuel →
      (∀ j ∈ todo, (m.entry j).start < stop) → (∀ j ∈ rest, stop ≤ (m.entry j).start) →
      ∃ m' front' rest', Map.finishLoop own settle stop fuel m (todo ++ rest).head? = some m' ∧
        Finishing c thread rv scope m₀ m' front' [] rest' := by
  intro fuel
  induction fuel with
  | zero => intro m front todo rest _ hfuel; omega
  | succ fuel ih =>
    intro m front todo rest h hfuel hahead hbehind
    cases todo with
    | nil =>
      cases rest with
      | nil => exact ⟨m, front, [], rfl, h⟩
      | cons n rest =>
        have hn := hbehind n (by simp)
        refine ⟨m, front, n :: rest, ?_, h⟩
        rw [List.nil_append, List.head?_cons, Map.finishLoop, if_neg (by omega)]
    | cons i todo =>
      rw [List.cons_append, List.head?_cons, Map.finishLoop, if_pos (hahead i (by simp)),
        if_pos (hown _ (h.marked i (by simp)))]
      rcases h.settleOne hset with ⟨ht, h₁⟩
      rcases h₁.simplify with ⟨front', rest', h₂, hsub, hother⟩
      have hl : ((settle m i).simplifyEntry i).list = front' ++ i :: (todo ++ rest') := by
        rw [h₂.list]
        simp
      dsimp only
      rw [next?_of_split h₂.wf.tree.nodup hl]
      have hstart : ∀ j ∈ todo ++ rest',
          (((settle m i).simplifyEntry i).entry j).start = (m.entry j).start := by
        intro j hj
        have hji : j ≠ i := by
          rintro rfl
          exact notMem_rest (hl ▸ h₂.wf.tree.nodup) (List.mem_append_right _ hj)
        rw [hother j hj, ht.other j hji]
      refine ih h₂ ?_ (fun j hj => ?_) fun j hj => ?_
      · have := hsub.length_le
        simp only [List.length_append, List.length_cons] at hfuel ⊢
        omega
      · rw [hstart j (by simp [hj])]
        exact hahead j (by simp [hj])
      · rw [hstart j (by simp [hj])]
        exact hbehind j (hsub.subset hj)

end finish

/-! ## Both walks -/

/-- What a pair of walks over a range from `lo` to `hi` comes to when it returns `rv`. -/
structure Wrought (c : Contract) (holesOk : Bool) (m m' : Map) (lo hi : Nat) (rv : Kern) :
    Prop where
  wf : Wf m'
  minOffset : m'.minOffset = m.minOffset
  maxOffset : m'.maxOffset = m.maxOffset
  aligned : ∀ j ∈ m'.list, Aligned (m'.entry j)
  quiet : ∀ j ∈ m'.list, Unmarked (m'.entry j)
  either : ∀ a, (m'.wiring a = m.wiring a ∧ m'.wired a = m.wired a) ∨
    ∃ x y, m.wiring a = some x ∧ m'.wiring a = some y ∧ c.ends rv x (m.wired a) y (m'.wired a)
  outside : ∀ a, a < lo ∨ hi ≤ a → m'.wiring a = m.wiring a ∧ m'.wired a = m.wired a
  inside : rv = .success → ∀ a x, lo ≤ a → a < hi → m.wiring a = some x →
    ∃ y, m'.wiring a = some y ∧ c.ends rv x (m.wired a) y (m'.wired a)
  solid : rv = .success → holesOk = false → ∀ a, a = lo ∨ lo ≤ a ∧ a < hi → (m.wiring a).isSome
  failure : rv ≠ .success →
    (holesOk = false ∧ ∃ a, (a = lo ∨ lo ≤ a ∧ a < hi) ∧ m.wiring a = none) ∨
      ∃ a x, lo ≤ a ∧ a < hi ∧ m.wiring a = some x ∧ c.fatal x

section walks

variable {c : Contract} {thread lo hi stop : Nat} {holesOk : Bool} {turn : Walk → Nat → Option Turn}
  {own : Entry → Bool} {settle : Kern → Map → Nat → Map} {m₀ m : Map} {rv : Kern} {w : Walk}
  {pre done rest : List Nat}

section

variable (h : Stopped c thread holesOk m₀ lo hi rv stop w pre done rest)
include h

/-- The second walk starts at the first marked entry, also when that has to be looked
    up again. -/
theorem wireResume_spec (hlo : holesOk = false → (m₀.wiring lo).isSome) :
    ∃ t, Map.wireResume w holesOk lo = ({ w.map with root := t }, (done ++ rest).head?) ∧
      Wf { w.map with root := t } := by
  have hm := h.marking
  have hlist : w.map.list = pre ++ (done ++ rest) := by rw [hm.list, List.append_assoc]
  rw [Map.wireResume]
  cases hfirst : w.first with
  | some i =>
    rcases h.first with hnone | hsome
    · rw [hfirst] at hnone
      cases hnone
    · rw [← hsome, hfirst]
      exact ⟨w.map.root, rfl, hm.wf⟩
  | none =>
    rcases lookup_spec hm.wf true lo with ⟨t, b, e, heq, hwf, hans⟩
    refine ⟨t, ?_, hwf⟩
    dsimp only
    rw [heq]
    by_cases hhit : ∃ i l, done ++ rest = i :: l ∧ (w.map.entry i).start = lo
    · rcases hhit with ⟨i, l, hcons, hstart⟩
      rw [hcons] at hlist ⊢
      have hne := hm.wf.laid.nonempty i (by simp [hlist])
      have hans' := hans.unique hm.wf.laid (.hit pre i l hlist hstart.le (by omega))
      cases hans'
      rfl
    have hbehind : ∀ j ∈ done ++ rest, lo < (w.map.entry j).start := by
      intro j hj
      cases hcons : done ++ rest with
      | nil =>
        rw [hcons] at hj
        cases hj
      | cons i l =>
        have hi' := hm.behind i (by simp [hcons])
        have hne : (w.map.entry i).start ≠ lo := fun heq => hhit ⟨i, l, hcons, heq⟩
        rw [hcons] at hlist hj
        exact hm.wf.laid.behind_of_split hlist (Nat.succ_le_of_lt (by omega)) j hj
    have hans' := hans.unique hm.wf.laid (.miss pre _ hlist hm.before hbehind)
    cases hans'
    have hnext : ({ w.map with root := t } : Map).nextOf pre.getLast? = (done ++ rest).head? :=
      nextOf_split hm.wf.tree.nodup hlist
    cases hholes : holesOk with
    | true => simp [hnext]
    | false =>
      -- The start of the range is mapped.
      exfalso
      have hsome := hlo hholes
      rw [← (hm.outside lo fun j hj => ?_).1] at hsome
      · rcases Option.isSome_iff_exists.mp hsome with ⟨x, hx⟩
        rcases exists_of_wiring hx with ⟨j, hj, hc, -⟩
        have := contains_iff.mp hc
        have := outside_of_split hlist hm.before hbehind hj
        omega
      have := hbehind j (by simp [hj])
      rw [Bool.eq_false_iff]
      intro hc
      have := contains_iff.mp hc
      omega

/-- What the first walk leaves is where the second starts. -/
theorem Stopped.finishing {t : SplayTree Nat} (hwf : Wf { w.map with root := t }) :
    Finishing c thread rv (fun a => ∃ j ∈ done, (w.map.entry j).contains a = true) m₀
      { w.map with root := t } pre done rest := by
  have hm := h.marking
  refine ⟨hwf, by rw [← List.append_assoc]; exact hm.list, hm.minOffset, hm.maxOffset, hm.aligned,
    hm.quiet, hm.marked, fun a ha => ?_, fun a ha hnone => ?_, fun j hj a ha => ?_⟩
  · refine hm.outside a fun j hj => ?_
    rw [Bool.eq_false_iff]
    exact fun hc => ha ⟨j, hj, hc⟩
  · rcases ha with ⟨j, hj, hc⟩
    have hfalse := hnone j hj
    rw [show (({ w.map with root := t } : Map).entry j).contains a = true from hc] at hfalse
    cases hfalse
  · exact ⟨⟨j, hj, ha⟩, hm.inside j hj a ha⟩

/-- From what the first walk has come to, the second goes through. -/
theorem finish_spec (hlo : holesOk = false → (m₀.wiring lo).isSome)
    (hown : ∀ e, Map.marked thread e = true → own e = true)
    (hset : SettleOk c thread rv (settle rv)) : ∃ m', (let (m, first) := Map.wireResume w holesOk lo
        Map.finishLoop own (settle rv) stop (m.list.length + 1) m first) = some m' ∧
      Wrought c holesOk m₀ m' lo hi rv := by
  rcases wireResume_spec h hlo with ⟨t, hresume, hwf⟩
  have hfin := h.finishing hwf
  have hm := h.marking
  have hlen : (done ++ rest).length < ({ w.map with root := t } : Map).list.length + 1 := by
    rw [hfin.list]
    simp only [List.length_append]
    omega
  rcases finishLoop_spec hown hset stop hfin hlen h.ahead h.behind with
    ⟨m', front', rest', hloop, hfin'⟩
  rw [hresume]
  refine ⟨m', hloop, hfin'.wf, hfin'.minOffset, hfin'.maxOffset, hfin'.aligned, fun j hj => ?_,
    fun a => ?_, fun a ha => ?_, fun hrv a x h₁ h₂ hx => ?_, fun hrv hno a ha => ?_, fun hrv => ?_⟩
  · refine hfin'.quiet j ?_
    rwa [hfin'.list, List.nil_append] at hj
  · by_cases hscope : ∃ j ∈ done, (w.map.entry j).contains a = true
    · exact .inr (hfin'.settled a hscope (by simp))
    · exact .inl (hfin'.outside a hscope)
  · refine hfin'.outside a ?_
    rintro ⟨j, hj, hc⟩
    have := hm.behind j (by simp [hj])
    have := hm.upto j hj
    have := contains_iff.mp hc
    omega
  · have hscope : ∃ j ∈ done, (w.map.entry j).contains a = true := by
      by_contra hno
      have hsame := (hm.outside a fun j hj => Bool.eq_false_iff.mpr fun hc => hno ⟨j, hj, hc⟩).1
      rw [hx] at hsame
      rcases exists_of_wiring hsame with ⟨j, hj, hc, -⟩
      have hca := contains_iff.mp hc
      rw [hm.list, List.mem_append, List.mem_append] at hj
      rcases hj with (hj | hj) | hj
      · have := hm.before j hj
        omega
      · exact hno ⟨j, hj, hc⟩
      have := h.behind j hj
      have := (h.success hrv).1
      omega
    rcases hfin'.settled a hscope (by simp) with ⟨x', y, hx', hy, hend⟩
    rw [hx] at hx'
    cases hx'
    exact ⟨y, hy, hend⟩
  · rcases ha with ha | ⟨h₁, h₂⟩
    · exact ha ▸ hlo hno
    · exact (h.success hrv).2 hno a h₁ h₂
  rcases h.failure hrv with ⟨hno, a, h₁, h₂, hnone⟩ | hfatal
  · exact .inl ⟨hno, a, .inr ⟨h₁, h₂⟩, hnone⟩
  · exact .inr hfatal

end

/-- Cutting the first entry before the walk or in its first turn is the same. -/
theorem markLoop_first {fuel : Nat} (hlt : (w.map.entry i).start < hi)
    (hquiet : (w.map.entry i).eflags.inTransition = false)
    (hstart : ((w.map.clipStart i lo).entry i).start = lo)
    (hquiet' : ((w.map.clipStart i lo).entry i).eflags.inTransition = false) (hlohi : lo < hi) :
    Map.markLoop thread turn lo hi (fuel + 1) w (some i)
      = Map.markLoop thread turn lo hi (fuel + 1) { w with map := w.map.clipStart i lo }
          (some i) := by
  have hagain : (w.map.clipStart i lo).clipStart i lo = w.map.clipStart i lo := by
    rw [Map.clipStart.eq_def (w.map.clipStart i lo), if_neg (by omega)]
  have hlt' : ((w.map.clipStart i lo).entry i).start < hi := by rwa [hstart]
  rw [Map.markLoop, if_pos hlt, if_neg (by simp [hquiet]), Map.markLoop, if_pos hlt',
    if_neg (by simp [hquiet']), hagain]

/-- The two walks from the first entry of the range, once that is cut. -/
theorem walks_spec {lst : Nat} (hturn : TurnOk c thread hi holesOk turn) (hhi : pageSize ∣ hi)
    (hmono : ∀ x w e w', c.good x w e w' → c.bad x w e w')
    (hbase : ∀ a x, m₀.wiring a = some x → c.base x (m₀.wired a))
    (hown : ∀ e, Map.marked thread e = true → own e = true)
    (hset : ∀ rv, SettleOk c thread rv (settle rv)) {fuel : Nat}
    (h : Marking c.good thread m₀ m lo hi pre [] (i :: rest)) (hfuel : rest.length < fuel)
    (hlo : holesOk = false → (m₀.wiring lo).isSome ∧ (m.entry i).start ≤ lo) :
    ∃ rv m', (match Map.markLoop thread turn lo hi (fuel + 1) ⟨m, some i, lst⟩ (some i) with
        | none => none
        | some (rv, stop, w) =>
          let (m, first) := Map.wireResume w holesOk lo
          (Map.finishLoop own (settle rv) stop (m.list.length + 1) m first).map fun m => (rv, m))
        = some (rv, m') ∧ Wrought c holesOk m₀ m' lo hi rv := by
  have hsolid : holesOk = false → Solid m₀ m lo hi lo (i :: rest) := fun hno =>
    ⟨fun a h₁ h₂ => by omega, .inr ⟨i, rfl, (hlo hno).2⟩⟩
  have hfuel' : (i :: rest).length < fuel + 1 ∨
      0 < fuel + 1 ∧ ∀ j ∈ i :: rest, hi ≤ (m.entry j).start := .inl (by simpa using hfuel)
  rcases markLoop_spec (w := ⟨m, some i, lst⟩) hturn hhi hmono hbase h hfuel' (.inr rfl) (by simp)
    hsolid with
    ⟨rv, stop, w, done, rest', hloop, hstopped⟩
  rcases finish_spec hstopped (fun hno => (hlo hno).1) hown (hset rv) with ⟨m', hfin, hwrought⟩
  rw [List.head?_cons] at hloop
  rw [hloop]
  dsimp only at hfin ⊢
  rw [hfin]
  exact ⟨rv, m', rfl, hwrought⟩

/-- A map that is left as it is. -/
theorem Wrought.refl (hquiet : ∀ j ∈ m.list, Unmarked (m.entry j))
    (haligned : ∀ j ∈ m.list, Aligned (m.entry j))
    (hinside : rv = .success → ∀ a x, lo ≤ a → a < hi → m.wiring a ≠ some x)
    (hsolid : rv = .success → holesOk = false → ∀ a, a = lo ∨ lo ≤ a ∧ a < hi → (m.wiring a).isSome)
    (hfailure : rv ≠ .success → holesOk = false ∧
      ∃ a, (a = lo ∨ lo ≤ a ∧ a < hi) ∧ m.wiring a = none) (t : SplayTree Nat)
    (hwf : Wf { m with root := t }) : Wrought c holesOk m { m with root := t } lo hi rv :=
  ⟨hwf, rfl, rfl, haligned, hquiet, fun _ => .inl ⟨rfl, rfl⟩, fun _ _ => ⟨rfl, rfl⟩,
    fun hrv a x h₁ h₂ hx => absurd hx (hinside hrv a x h₁ h₂), hsolid,
    fun hrv => .inl (hfailure hrv)⟩

/-- Both walks over a range that is not empty, unless it lies outside the map. -/
theorem wireWalks_spec (hturn : TurnOk c thread hi holesOk turn) (hlo : pageSize ∣ lo)
    (hhi : pageSize ∣ hi) (hmono : ∀ x w e w', c.good x w e w' → c.bad x w e w')
    (hbase : ∀ a x, m.wiring a = some x → c.base x (m.wired a))
    (hown : ∀ e, Map.marked thread e = true → own e = true)
    (hset : ∀ rv, SettleOk c thread rv (settle rv)) (h : Wf m)
    (hquiet : ∀ j ∈ m.list, Unmarked (m.entry j)) (haligned : ∀ j ∈ m.list, Aligned (m.entry j))
    (hle : lo ≤ hi)
    (hrange : lo < hi ∨ ∀ j ∈ m.list, (m.entry j).start < hi → (m.entry j).stop ≤ lo) :
    ∃ rv m', m.wireWalks thread holesOk turn own settle lo hi = some (rv, m') ∧
      Wrought c holesOk m m' lo hi rv := by
  rcases lookup_spec h true lo with ⟨t, b, e, heq, hwf, hans⟩
  rw [Map.wireWalks, Map.wireFirst, heq]
  set m₁ : Map := { m with root := t }
  cases hans with
  | miss pre post hlist hpre hpost =>
    have hnone : m.wiring lo = none := by
      cases hw : m.wiring lo with
      | none => rfl
      | some x =>
        rcases exists_of_wiring hw with ⟨j, hj, hc, -⟩
        have := contains_iff.mp hc
        have := outside_of_split hlist hpre hpost hj
        omega
    cases holesOk with
    | false =>
      have hw : Wrought c false m m₁ lo hi .invalidAddress :=
        .refl hquiet haligned (by simp) (by simp) (fun _ => ⟨rfl, lo, .inl rfl, hnone⟩) t hwf
      exact ⟨.invalidAddress, m₁, rfl, hw⟩
    | true =>
      have hnext : m₁.nextOf pre.getLast? = post.head? := nextOf_split h.tree.nodup hlist
      dsimp only
      rw [if_pos rfl, hnext]
      cases post with
      | nil =>
        have hmiss : ∀ a x, lo ≤ a → m.wiring a ≠ some x := by
          intro a x h₁ hx
          rcases exists_of_wiring hx with ⟨j, hj, hc, -⟩
          have := contains_iff.mp hc
          have := hpre j (by simpa [hlist] using hj)
          omega
        have hw : Wrought c true m m₁ lo hi .success :=
          .refl hquiet haligned (fun _ a x h₁ _ => hmiss a x h₁) (by simp) (by simp) t hwf
        exact ⟨.success, m₁, rfl, hw⟩
      | cons i post =>
        have hlen : post.length < m₁.list.length := by
          show post.length < m.list.length
          simp only [hlist, List.length_append, List.length_cons]
          omega
        have hmark : Marking c.good thread m m₁ lo hi pre [] (i :: post) := by
          refine ⟨hwf, by simpa using hlist, rfl, rfl, haligned, hpre, fun j hj => ?_,
            by simp, fun j hj => hquiet j (hlist ▸ hj), by simp, fun _ _ => ⟨rfl, rfl⟩, by simp⟩
          exact (hpost j hj).le
        exact walks_spec hturn hhi hmono hbase hown hset hmark hlen fun hno => nomatch hno
  | hit pre i post hlist hstart hstop =>
    have hi' : i ∈ m.list := by simp [hlist]
    have hsome : (m.wiring lo).isSome := by
      rw [wiring_of_mem h.laid hi' (contains_iff.mpr ⟨hstart, hstop⟩)]
      rfl
    have hlen : post.length < m₁.list.length := by
      show post.length < m.list.length
      simp only [hlist, List.length_append, List.length_cons]
      omega
    dsimp only
    rcases lt_or_ge (m.entry i).start hi with hlt | hge
    · have hlohi : lo < hi := by
        refine hrange.resolve_right fun hall => ?_
        have := hall i hi' hlt
        omega
      rcases clipStart_first hwf hlist hlo ⟨hstart, hstop⟩ with
        ⟨pre', post', hcut, hlist', hlen', hstart'⟩
      have hquiet' := hcut.quiet hquiet
      have hi₁ : i ∈ (m₁.clipStart i lo).list := by simp [hlist']
      rw [markLoop_first (w := ⟨m₁, some i, m₁.timestamp⟩) hlt (hquiet i hi').inTransition hstart'
        (hquiet' i hi₁).inTransition hlohi]
      have hmark : Marking c.good thread m (m₁.clipStart i lo) lo hi pre' [] (i :: post') := by
        refine ⟨hcut.wf, by simpa using hlist', hcut.minOffset, hcut.maxOffset,
          hcut.aligned haligned, fun j hj => ?_, ?_, by simp, fun j hj => hquiet' j (hlist' ▸ hj),
          by simp, fun a _ => ⟨hcut.wiring a, by rw [hcut.wired]⟩, by simp⟩
        · have := (hcut.wf.laid.around hlist').1 j hj
          omega
        · exact hcut.wf.laid.behind_of_split hlist' hstart'.ge
      exact walks_spec hturn hhi hmono hbase hown hset hmark (by omega)
        fun _ => ⟨hsome, hstart'.le⟩
    -- The range is empty, and the walk ends at once.
    have hmark : Marking c.good thread m m₁ lo hi pre [] (i :: post) := by
      refine ⟨hwf, by simpa using hlist, rfl, rfl, haligned, fun j hj => ?_,
        ?_, by simp, fun j hj => hquiet j (hlist ▸ hj), by simp, fun _ _ => ⟨rfl, rfl⟩, by simp⟩
      · have := (h.laid.around hlist).1 j hj
        show (m.entry j).stop ≤ lo
        omega
      · exact hwf.laid.behind_of_split hlist (le_trans hle hge)
    exact walks_spec hturn hhi hmono hbase hown hset hmark hlen fun _ => ⟨hsome, hstart⟩

/-- The calls, over any range of whole pages. -/
theorem wireWith_spec {turn : Nat → Walk → Nat → Option Turn} {start stop : Nat}
    (hturn : ∀ hi, TurnOk c thread hi holesOk (turn hi)) (hstart : pageSize ∣ start)
    (hstop : pageSize ∣ stop) (hle : start ≤ stop)
    (hmin : pageSize ∣ m.minOffset) (hmax : pageSize ∣ m.maxOffset)
    (hmono : ∀ x w e w', c.good x w e w' → c.bad x w e w')
    (hbase : ∀ a x, m.wiring a = some x → c.base x (m.wired a))
    (hown : ∀ e, Map.marked thread e = true → own e = true)
    (hset : ∀ rv, SettleOk c thread rv (settle rv)) (h : Wf m)
    (hquiet : ∀ j ∈ m.list, Unmarked (m.entry j)) (haligned : ∀ j ∈ m.list, Aligned (m.entry j)) :
    (start = stop ∧ m.wireWith thread holesOk turn own settle start stop = some (.success, m)) ∨
      ∃ rv m', m.wireWith thread holesOk turn own settle start stop = some (rv, m') ∧
        Wrought c holesOk m m' (m.rangeCheck start stop).1 (m.rangeCheck start stop).2 rv := by
  rw [Map.wireWith]
  split
  case isTrue heq => exact .inl ⟨heq, rfl⟩
  case isFalse hne =>
  right
  have hrange : pageSize ∣ (m.rangeCheck start stop).1 ∧ pageSize ∣ (m.rangeCheck start stop).2 ∧
      (m.rangeCheck start stop).1 ≤ (m.rangeCheck start stop).2 ∧
      ((m.rangeCheck start stop).1 < (m.rangeCheck start stop).2 ∨
        (m.rangeCheck start stop).2 ≤ m.minOffset ∨ m.maxOffset ≤ (m.rangeCheck start stop).1) := by
    simp only [Map.rangeCheck]
    split <;> split <;> split <;> refine ⟨by assumption, by assumption, by omega, by omega⟩
  have hlock : m.lock.rangeCheck start stop = m.rangeCheck start stop := rfl
  rcases hrange with ⟨hlo, hhi, hlohi, hcase⟩
  dsimp only
  rw [hlock]
  have hwalks := wireWalks_spec (m := m.lock) (hturn _) hlo hhi hmono hbase hown hset h.lock
    hquiet haligned hlohi (hcase.imp_right fun hout j hj hlt => ?_)
  · rcases hwalks with ⟨rv, m', heq, hw⟩
    exact ⟨rv, m', heq, hw.wf, hw.minOffset, hw.maxOffset, hw.aligned, hw.quiet, hw.either,
      hw.outside, hw.inside, hw.solid, hw.failure⟩
  have := h.laid.low j hj
  have := h.laid.high j hj
  have : (m.lock.entry j).start = (m.entry j).start := rfl
  have : (m.lock.entry j).stop = (m.entry j).stop := rfl
  omega

end walks

end FreeBSDKern.VmMap
