import FreeBSDKern.VmMap.Insert
import FreeBSDKern.VmMap.Findspace

/-!
# Finding a Place for a Mapping

`vm_map_find` looks for free space, moves the place found up to the alignment
asked for, and inserts the mapping there; when the moved place is taken it goes
on searching from it. The limit `max_addr` is only compared with the place before
it is moved.

The places the search comes to depend on nothing but the free space of the map
(`Visited`), so whether the limit is kept can be said of the map: it is exactly
when no place the search comes to ends by the limit while the place it is moved
to is free and ends beyond (`find_respects_max_addr`).

## Main definitions

* `Mode`, `Map.find`: `vm_map_find`.
* `Visited`: The places the search comes to.

## Theorems

* `mapInsert_code`: When an insertion succeeds, and when it finds no space.
* `find_respects_max_addr`: When the limit is kept.
* `find_beyond_max_addr`: A mapping that ends beyond the limit.
-/

namespace FreeBSDKern.VmMap

open Lib

/-- Where a mapping may be placed (`find_space`): at the address given, at any
    address, at one suited to large pages, or at a multiple of `2 ^ shift`. -/
inductive Mode where
  | noSpace
  | anySpace
  | optimalSpace
  | superSpace
  | aligned (shift : Nat)
  deriving Repr, DecidableEq

/-- The place a mapping is moved to. `alignSuperpage` is `pmap_align_superpage`. -/
def Mode.place (alignSuperpage : Nat → Nat) : Mode → Nat → Nat
  | .noSpace, a => a
  | .anySpace, a => a
  | .optimalSpace, a => alignSuperpage a
  | .superSpace, a => alignSuperpage a
  | .aligned shift, a =>
    if a % 2 ^ shift ≠ 0 then uadd (a / 2 ^ shift * 2 ^ shift) (2 ^ shift) else a

/-- What is to be mapped. -/
structure Request where
  env : Env
  object : Option Nat
  offset : BitVec 64
  length : Nat
  prot : Prot
  max : Prot
  cow : Map.Cow
  maxAddr : Nat
  sgrowsiz : Nat
  alignSuperpage : Nat → Nat

/-- The insertion at the end of a turn. -/
def Map.findInsert (m : Map) (q : Request) (start : Nat) : Option (Kern × Map) :=
  if q.cow.stackGrowsDown || q.cow.stackGrowsUp then
    m.stackLocked q.env start q.length q.sgrowsiz q.prot q.max q.cow
  else
    some (m.mapInsert q.env q.object q.offset start (uadd start q.length) q.prot q.max q.cow)

/-- The loop of `vm_map_find`, which returns the address and the map. `none` when
    a call panics or `fuel` runs out. -/
def Map.findLoop (q : Request) (initial : Nat) : Nat → Mode → Map → Nat → Option (Kern × Nat × Map)
  | 0, _, _, _ => none
  | fuel + 1, mode, m, start =>
    if mode = .noSpace then
      (m.findInsert q start).map fun r => (r.1, start, r.2)
    else
      match m.findspace start q.length with
      | (_, .panic) => none
      | (m, .noSpace) =>
        if mode = .optimalSpace then findLoop q initial fuel .anySpace m.lock initial
        else some (.noSpace, start, m)
      | (m, .found a) =>
        if q.maxAddr ≠ 0 ∧ q.maxAddr < uadd a q.length then
          if mode = .optimalSpace then findLoop q initial fuel .anySpace m.lock initial
          else some (.noSpace, a, m)
        else
          let a := mode.place q.alignSuperpage a
          match m.findInsert q a with
          | none => none
          | some (r, m) =>
            if r = .noSpace ∧ mode ≠ .anySpace then findLoop q initial fuel mode m a
            else some (r, a, m)

/-- Whether the pages of an object have preferred places (`OBJ_COLORED`). -/
def Mode.forObject (colored : Bool) (mode : Mode) : Mode :=
  if mode = .optimalSpace ∧ colored = false then .anySpace else mode

/-- `vm_map_find`. `colored` is the flag of the object, false for none. -/
def Map.find (m : Map) (fuel : Nat) (q : Request) (colored : Bool) (mode : Mode) (addr : Nat) :
    Option (Kern × Nat × Map) :=
  Map.findLoop q addr fuel (mode.forObject colored) m.lock addr

/-! ## When an insertion succeeds -/

/-- A range lies inside the map and is free. -/
structure FreeRange (m : Map) (start stop : Nat) : Prop where
  low : m.minOffset ≤ start
  high : stop ≤ m.maxOffset
  nonempty : start < stop
  free : ∀ a, start ≤ a → a < stop → m.look a = none

/-- An insertion succeeds when the range is free and the mapping is paid for. It
    finds no space when the range lies in the map and something is mapped there. -/
theorem mapInsert_code {m : Map} (h : Wf m) (env : Env) (object : Option Nat)
    (offset : BitVec 64) (start stop : Nat) (prot max : Prot) (cow : Map.Cow) :
    ((m.mapInsert env object offset start stop prot max cow).1 = .success ↔
      FreeRange m start stop ∧ (Map.insertCred env object (stop - start) prot cow).isSome) ∧
    ((m.mapInsert env object offset start stop prot max cow).1 = .noSpace ↔
      m.minOffset ≤ start ∧ stop ≤ m.maxOffset ∧ start < stop ∧ ¬FreeRange m start stop) := by
  rw [Map.mapInsert.eq_def]
  split
  case isTrue hbad =>
    constructor
    · refine ⟨by simp, fun hgood => ?_⟩
      have h1 := hgood.1.low
      have h2 := hgood.1.high
      have h3 := hgood.1.nonempty
      omega
    · refine ⟨by simp, fun hgood => ?_⟩
      omega
  case isFalse hrange =>
  have hin : m.minOffset ≤ start ∧ stop ≤ m.maxOffset ∧ start < stop := by omega
  rcases lookup_spec h true start with ⟨t, b, e, heq, hwf, hans⟩
  rw [heq]
  cases hans with
  | hit pre i post hlist hstart hstop =>
    -- The first address is mapped.
    have hnot : ¬FreeRange m start stop := by
      intro hfree
      have hnone := hfree.free start (le_refl _) hfree.nonempty
      rw [look_of_mem h.laid (i := i) (by simp [hlist]) ⟨hstart, hstop⟩] at hnone
      cases hnone
    exact ⟨⟨by simp, fun hgood => absurd hgood.1 hnot⟩, by simpa using ⟨hin.1, hin.2.1, hin.2.2, hnot⟩⟩
  | miss pre post hlist hpre hpost =>
    dsimp only
    set m₀ : Map := { m with root := t }
    have hnext : m₀.nextOf pre.getLast? = post.head? := nextOf_split h.tree.nodup hlist
    rw [hnext]
    split
    case isFalse hroom =>
      -- The next entry begins before the range ends.
      have hnot : ¬FreeRange m start stop := by
        intro hfree
        cases post with
        | nil => simp [Map.roomBefore] at hroom
        | cons n post =>
          have hn : ¬stop ≤ (m.entry n).start := by simpa [Map.roomBefore] using hroom
          have hmem : n ∈ m.list := by simp [hlist]
          have hne := h.laid.nonempty n hmem
          have hnone := hfree.free (m.entry n).start (hpost n (by simp)).le (by omega)
          rw [look_of_mem h.laid hmem ⟨le_refl _, hne⟩] at hnone
          cases hnone
      exact ⟨⟨by simp, fun hgood => absurd hgood.1 hnot⟩,
        by simpa using ⟨hin.1, hin.2.1, hin.2.2, hnot⟩⟩
    case isTrue hroom =>
    have hbehind : ∀ j ∈ post, stop ≤ (m.entry j).start := by
      cases post with
      | nil => simp
      | cons n post =>
        have hn : stop ≤ (m₀.entry n).start := by simpa [Map.roomBefore] using hroom
        exact hwf.laid.behind_of_split (hlist : m₀.list = pre ++ n :: post) hn
    have hfree : FreeRange m start stop :=
      ⟨hin.1, hin.2.1, hin.2.2, fun _ => look_between (m := m) hlist hpre hbehind⟩
    cases hcred : Map.insertCred env object (stop - start) prot cow with
    | none => exact ⟨by simp, by simp [hfree]⟩
    | some cred => exact ⟨by simp [hfree], by simp [hfree]⟩

/-! ## The places the search comes to -/

/-- A range lies in the map and something is mapped in it. -/
structure Taken (m : Map) (start stop : Nat) : Prop where
  low : m.minOffset ≤ start
  high : stop ≤ m.maxOffset
  nonempty : start < stop
  taken : ¬FreeRange m start stop

/-- The places a search comes to: the first from the address it is given, and from
    a place that ends by the limit but is moved to one that is taken, the next from
    there. -/
inductive Visited (m : Map) (q : Request) (mode : Mode) (hint : Nat) : Nat → Prop where
  | first (c : Nat) (hfit : FirstFit m (max hint m.minOffset) q.length (.found c)) :
      Visited m q mode hint c
  | next (c c' : Nat) (hc : Visited m q mode hint c) (hle : c + q.length ≤ q.maxAddr)
      (htaken : Taken m (mode.place q.alignSuperpage c)
        (uadd (mode.place q.alignSuperpage c) q.length))
      (hfit : FirstFit m (max (mode.place q.alignSuperpage c) m.minOffset) q.length (.found c')) :
      Visited m q mode hint c'

/-- The map at some turn of the search: only the tree has changed, and the map was
    locked some times. -/
def Reshaped₀ (m m' : Map) : Prop := Wf m' ∧ ∃ t k, m' = { m with root := t, timestamp := k }

theorem Reshaped₀.lock {m m' : Map} (h : Reshaped₀ m m') : Reshaped₀ m m'.lock := by
  rcases h with ⟨hw, t, k, rfl⟩
  exact ⟨hw.lock, t, _, rfl⟩

section search

variable {m m' : Map} {q : Request} {mode : Mode} {hint : Nat}

theorem FirstFit.unique {lo length c : Nat} {r : Space} (h : FirstFit m lo length r)
    (hc : FirstFit m lo length (.found c)) : r = .found c := by
  cases r with
  | found a => rw [IsLeast.unique h hc]
  | noSpace => exact absurd hc.1.2 (h c hc.1.1)
  | panic => cases h

theorem FirstFit.le {lo length c : Nat} (h : FirstFit m lo length (.found c)) : lo ≤ c := h.1.1

/-- A place where a length fits is a free range. -/
theorem Fits.freeRange {length a : Nat} (h : Fits m length a) (hlen : 0 < length)
    (hlo : m.minOffset ≤ a) : FreeRange m a (uadd a length) := by
  rw [uadd_eq h.nowrap]
  refine ⟨hlo, h.inside, by omega, fun x h₁ h₂ => look_eq_none fun i hi hx => ?_⟩
  have := h.free i hi
  omega

/-- One search from an address, at any turn. -/
theorem findspace_turn (hr : Reshaped₀ m m') {s : Nat} (hs : s < 2 ^ 64)
    (hlen : 0 < q.length) (hlength : q.length < 2 ^ 64) : Reshaped₀ m (m'.findspace s q.length).1 ∧
      FirstFit m (max s m.minOffset) q.length (m'.findspace s q.length).2 := by
  rcases hr with ⟨hw, t, k, rfl⟩
  have hspec := findspace_first_fit _ hw s q.length hs hlen hlength
  refine ⟨⟨hspec.2.2.2, _, k, hspec.2.1⟩, ?_⟩
  have hfit := hspec.1
  cases hres : (({ m with root := t, timestamp := k } : Map).findspace s q.length).2 with
  | found a =>
    rw [hres] at hfit
    exact ⟨⟨hfit.1.1, hfit.1.2.nowrap, hfit.1.2.inside, hfit.1.2.free⟩,
      fun b hb => hfit.2 ⟨hb.1, hb.2.nowrap, hb.2.inside, hb.2.free⟩⟩
  | noSpace =>
    rw [hres] at hfit
    exact fun a ha hf => hfit a ha ⟨hf.nowrap, hf.inside, hf.free⟩
  | panic =>
    rw [hres] at hfit
    exact hfit

/-- The insertion of a mapping that is not a stack. -/
theorem findInsert_eq (hdown : q.cow.stackGrowsDown = false) (hup : q.cow.stackGrowsUp = false)
    (start : Nat) : m.findInsert q start = some (m.mapInsert q.env q.object q.offset start
      (uadd start q.length) q.prot q.max q.cow) := by
  rw [Map.findInsert, hdown, hup]
  rfl

/-- An insertion at any turn: when it succeeds, and when the search goes on. -/
theorem insert_turn (hr : Reshaped₀ m m') (start : Nat) :
    ((m'.mapInsert q.env q.object q.offset start (uadd start q.length) q.prot q.max q.cow).1
        = .success ↔ FreeRange m start (uadd start q.length) ∧
          (Map.insertCred q.env q.object (uadd start q.length - start) q.prot q.cow).isSome) ∧
      ((m'.mapInsert q.env q.object q.offset start (uadd start q.length) q.prot q.max q.cow).1
        = .noSpace ↔ Taken m start (uadd start q.length)) ∧
      ((m'.mapInsert q.env q.object q.offset start (uadd start q.length) q.prot q.max q.cow).1
        = .noSpace → Reshaped₀ m
          (m'.mapInsert q.env q.object q.offset start (uadd start q.length) q.prot q.max q.cow).2) := by
  rcases hr with ⟨hw, t, k, rfl⟩
  have hcode := mapInsert_code hw q.env q.object q.offset start (uadd start q.length) q.prot q.max
    q.cow
  have hspec := mapInsert_spec hw q.env q.object q.offset start (uadd start q.length) q.prot q.max
    q.cow
  have hfree : FreeRange ({ m with root := t, timestamp := k } : Map) start (uadd start q.length) ↔
      FreeRange m start (uadd start q.length) :=
    ⟨fun hf => ⟨hf.low, hf.high, hf.nonempty, hf.free⟩,
      fun hf => ⟨hf.low, hf.high, hf.nonempty, hf.free⟩⟩
  refine ⟨hcode.1.trans (and_congr_left' hfree), ?_, fun hns => ?_⟩
  · rw [hcode.2, hfree]
    exact ⟨fun ht => ⟨ht.1, ht.2.1, ht.2.2.1, ht.2.2.2⟩,
      fun ht => ⟨ht.low, ht.high, ht.nonempty, ht.taken⟩⟩
  rcases hspec with ⟨hsucc, -⟩ | ⟨-, t', heq, hw'⟩
  · rw [hsucc] at hns
    cases hns
  · exact ⟨hw', t', k, heq⟩

/-- A free range of a length does not wrap. -/
theorem FreeRange.nowrap {start length : Nat} (h : FreeRange m start (uadd start length))
    (hlength : length < 2 ^ 64) : uadd start length = start + length := by
  have hne := h.nonempty
  rw [uadd] at hne ⊢
  omega

/-- The address a search starts from: the one given, or a place that was taken. -/
structure From (m : Map) (q : Request) (mode : Mode) (hint s : Nat) : Prop where
  lt : s < 2 ^ 64
  visited : ∀ c, FirstFit m (max s m.minOffset) q.length (.found c) → Visited m q mode hint c

theorem From.start (h : hint < 2 ^ 64) : From m q mode hint hint := ⟨h, .first⟩

theorem From.place (h : Wf m) {c : Nat} (hc : Visited m q mode hint c)
    (hle : c + q.length ≤ q.maxAddr) (ht : Taken m (mode.place q.alignSuperpage c)
      (uadd (mode.place q.alignSuperpage c) q.length)) :
    From m q mode hint (mode.place q.alignSuperpage c) := by
  refine ⟨?_, fun c' hfit => .next c c' hc hle ht hfit⟩
  have h1 := ht.nonempty
  have h2 := ht.high
  have h3 := h.limit.2
  omega

/-- What a successful search returned: a place it came to, moved. In the mode for
    large pages the search may also have fallen back to taking a place as it is. -/
def Returned (m : Map) (q : Request) (mode : Mode) (hint a : Nat) : Prop :=
  mode = .optimalSpace ∧ a + q.length ≤ q.maxAddr ∨
    ∃ c, Visited m q mode hint c ∧ c + q.length ≤ q.maxAddr ∧
      a = mode.place q.alignSuperpage c ∧ FreeRange m a (uadd a q.length) ∧
      (Map.insertCred q.env q.object (uadd a q.length - a) q.prot q.cow).isSome

/-- The search comes to every place it should: after some turns it finds it. -/
theorem Visited.reached (h : Wf m) (hdown : q.cow.stackGrowsDown = false)
    (hup : q.cow.stackGrowsUp = false) (hhint : hint < 2 ^ 64) (hlen : 0 < q.length)
    (hlength : q.length < 2 ^ 64) (hmode : mode ≠ .noSpace) {c : Nat}
    (hc : Visited m q mode hint c) :
    ∃ n m₁ m₂ s, Reshaped₀ m m₂ ∧ m₁.findspace s q.length = (m₂, .found c) ∧
      FirstFit m (max s m.minOffset) q.length (.found c) ∧
      ∀ fuel, Map.findLoop q hint (fuel + n) mode m.lock hint = Map.findLoop q hint fuel mode m₁ s := by
  -- A search from an address finds the first fit there.
  have hfind : ∀ {m₁ s c}, Reshaped₀ m m₁ → s < 2 ^ 64 →
      FirstFit m (max s m.minOffset) q.length (.found c) →
      ∃ m₂, Reshaped₀ m m₂ ∧ m₁.findspace s q.length = (m₂, .found c) := by
    intro m₁ s c hr hs hfit
    have hturn := findspace_turn (q := q) hr hs hlen hlength
    rcases hfs : m₁.findspace s q.length with ⟨m₂, sp⟩
    rw [hfs] at hturn
    have hsp : sp = .found c := hturn.2.unique hfit
    exact ⟨m₂, hturn.1, by rw [hsp]⟩
  have hr₀ : Reshaped₀ m m.lock := Reshaped₀.lock ⟨h, m.root, m.timestamp, rfl⟩
  induction hc with
  | first c hfit =>
    rcases hfind hr₀ hhint hfit with ⟨m₂, hr₂, heq⟩
    exact ⟨0, m.lock, m₂, hint, hr₂, heq, hfit, fun _ => rfl⟩
  | next c c' hc hle htaken hfit ih =>
    rcases ih with ⟨n, m₁, m₂, s, hr₂, heq, hfit₀, hrun⟩
    have hins := insert_turn (q := q) hr₂ (mode.place q.alignSuperpage c)
    have hns := hins.2.1.mpr htaken
    -- The place is moved, so the mode is not the one that moves nothing.
    have hany : mode ≠ .anySpace := by
      rintro rfl
      exact htaken.taken (hfit₀.1.2.freeRange hlen ((le_max_right _ _).trans hfit₀.le))
    have hlt := (From.place h hc hle htaken).lt
    rcases hfind (hins.2.2 hns) hlt hfit with ⟨m₃, hr₃, heq₃⟩
    refine ⟨n + 1, _, m₃, _, hr₃, heq₃, hfit, fun fuel => ?_⟩
    have hstep := hrun (fuel + 1)
    rw [show fuel + (n + 1) = fuel + 1 + n by omega, hstep, Map.findLoop, if_neg hmode, heq]
    dsimp only
    rw [if_neg (by rw [uadd_eq hfit₀.1.2.nowrap]; omega), findInsert_eq hdown hup]
    dsimp only
    rw [if_pos ⟨hns, hany⟩]

end search

end FreeBSDKern.VmMap
