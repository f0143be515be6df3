import FreeBSDKern.Rman.Placing
import FreeBSDKern.Rman.Run

/-!
# What a Reservation Gives

The first pass takes the first free entry, of those in reach, that has room for the
request at its first address. The other end of the request is only looked at where the
entry begins: an entry is given up if it begins so late that the request would not end in
time, but one that begins early enough is taken even if its first address does not leave
time. So the range that is given can end behind the end that was asked for, and it does
so only if there is no range as it was asked for in any free entry.

Two more things go wrong in words. The first address can be beyond the last word, and then
the request is put at zero. And the size of a free entry of all words is zero, which is
too little for any request.

## Main definitions

* `Available`: There is a range as it is asked for in a free entry.
* `Takes`: There is room for the request in an entry, in words.
* `Honoured`: What a reservation should give.
* `ReservesWell`: The condition under which it does.

## Theorems

* `findFree_eq`: The first pass is a search of the list.
* `carve_given`, `share_given`: What the two passes give.
* `reserve_honours`: A reservation gives what it should exactly under the condition.
-/

namespace FreeBSDKern.Rman

open Lib Function

/-- There is a range as it is asked for in a free entry. -/
def Available (m : Manager) (q : Request) : Prop :=
  ∃ s ∈ m.rmList, m.allocated s = false ∧
    ∃ a b, Fits q a b ∧ (m.res s).rStart ≤ a ∧ b ≤ (m.res s).rEnd

/-- The first address in an entry, as a word. -/
def firstWord (m : Manager) (q : Request) (s : Nat) : Nat :=
  q.place (max (m.res s).rStart q.start) % wordSize

/-- There is room for the request in an entry, in words: the size of all words is zero. -/
def Takes (m : Manager) (q : Request) (s : Nat) : Prop :=
  firstWord m q s + q.count ≤ (m.res s).rEnd + 1 ∧
    ¬(firstWord m q s = 0 ∧ (m.res s).rEnd = ulongMax ∧ q.end' = ulongMax)

instance (m : Manager) (q : Request) (s : Nat) : Decidable (Takes m q s) :=
  inferInstanceAs (Decidable (_ ∧ ¬_))

/-- An entry that can be shared by the request. -/
def Matches (m : Manager) (q : Request) (s : Nat) : Prop :=
  m.allocated s = true ∧ shareType (m.res s).rFlags = shareType q.flags ∧
    Fits q (m.res s).rStart (m.res s).rEnd

/-- What a reservation should give: a range as it was asked for, in a free entry or, if it
    is shared, that of an entry that can be. It should fail only for want of memory, or if
    there is no such range. -/
def Honoured (m : Manager) (q : Request) (nowait nowait' : Bool) (m' : Manager) : Option Nat → Prop
  | some i => Fits q (m'.res i).rStart (m'.res i).rEnd ∧
      (((m'.res i).rSharehead = none ∧ ∃ s ∈ m.rmList, m.allocated s = false ∧
          (m.res s).rStart ≤ (m'.res i).rStart ∧ (m'.res i).rEnd ≤ (m.res s).rEnd) ∨
        ((m'.res i).rSharehead ≠ none ∧ ∃ s ∈ m.rmList, Matches m q s ∧ m'.range i = m.range s))
  | none => nowait = true → nowait' = true →
      ¬Available m q ∧ (has q.flags rfShareable = true → ∀ s ∈ m.rmList, ¬Matches m q s)

/-- All words are free, and all are asked for. -/
def Whole (m : Manager) (q : Request) : Prop :=
  q.start = 0 ∧ q.end' = ulongMax ∧
    ∃ s ∈ m.rmList, m.allocated s = false ∧ (m.res s).rStart = 0 ∧ (m.res s).rEnd = ulongMax

/-- Not all words are free and asked for, and if no free entry has a range as it is asked
    for, then there is no room in those in reach. -/
def ReservesWell (m : Manager) (q : Request) : Prop :=
  ¬Whole m q ∧ (Available m q ∨
    ∀ s ∈ m.rmList, m.allocated s = false → inReach m q s = true → ¬Takes m q s)

section

variable {m : Manager} {q : Request}

/-! ## The first pass -/

/-- The bounds of the first pass on where an entry begins. -/
def inTime (m : Manager) (q : Request) (s : Nat) : Bool :=
  (m.res s).rStart ≤ sub q.end' (sub q.count 1) ∧ (m.res s).rStart ≤ ulongMax - q.amask

-- The truncated region has room exactly if the entry has, or the size is zero.
theorem room_iff {w e c rEnd end' : Nat} (hcount : 1 ≤ c) (hc : c < wordSize) (hq : end' < wordSize)
    (hend : rEnd < wordSize) (hlast : w + c ≤ wordSize → e = w + c - 1) :
    (¬w > min rEnd (max e end') ∧ add (sub (min rEnd (max e end')) w) 1 ≥ c) ↔
      w + c ≤ rEnd + 1 ∧ ¬(w = 0 ∧ rEnd = ulongMax ∧ end' = ulongMax) := by
  have hmax := ulongMax_succ
  by_cases hroom : w + c ≤ rEnd + 1
  · rw [hlast (by omega), and_iff_right hroom]
    have hle : w ≤ min rEnd (max (w + c - 1) end') := by omega
    rw [sub_of_le hle (by omega), and_iff_right (Nat.not_lt.mpr hle)]
    by_cases hall : w = 0 ∧ rEnd = ulongMax ∧ end' = ulongMax
    · rcases hall with ⟨hzero, hlast', hall⟩
      have hwhole : min rEnd (max (w + c - 1) end') - w = ulongMax := by omega
      rw [hwhole, add_one_max]
      exact ⟨fun h => by omega, fun h => absurd ⟨hzero, hlast', hall⟩ h⟩
    · rw [add_one (by omega)]
      exact ⟨fun _ => hall, fun _ => by omega⟩
  refine ⟨fun h => absurd h.2 ?_, fun h => absurd h.1 hroom⟩
  have hle : w ≤ min rEnd (max e end') := not_lt.mp h.1
  rw [sub_of_le hle (by omega)]
  have hmod : add (min rEnd (max e end') - w) 1 ≤ min rEnd (max e end') - w + 1 :=
    Nat.mod_le _ _
  omega

theorem findFree_eq (hok : m.Core) (hw : q.Words) (hcount : 1 ≤ q.count) (hb : BoundOk q) :
    ∀ {l : List Nat}, (∀ i ∈ l, i ∈ m.rmList) →
      l.Pairwise (fun i j => (m.res i).rStart ≤ (m.res j).rStart) →
      findFree m q l = some ((l.find? (fun s => inTime m q s && !m.allocated s &&
        decide (Takes m q s))).map (fun s => (s, firstWord m q s))) := by
  intro l
  induction l with
  | nil => exact fun _ _ => rfl
  | cons s rest ih =>
    intro hmem hsorted
    rcases List.pairwise_cons.mp hsorted with ⟨hfirst, htail⟩
    have hrest := ih (fun i hi => hmem i (List.mem_cons_of_mem s hi)) htail
    have hs := hmem s List.mem_cons_self
    rw [findFree]
    dsimp only
    by_cases htime : inTime m q s = true
    · rcases of_decide_eq_true htime with ⟨hlimit, hmask⟩
      rw [if_neg (Nat.not_lt.mpr hlimit), if_neg (Nat.not_lt.mpr hmask)]
      cases halloc : m.allocated s with
      | true =>
        rw [if_pos rfl, hrest, List.find?_cons_of_neg]
        simp [halloc]
      | false =>
        have hx : max (m.res s).rStart q.start < wordSize := by
          have hself := hok.ranges.nonempty _ (List.mem_map_of_mem hs)
          have hword := hok.word s hs
          exact Nat.max_lt.mpr ⟨lt_of_le_of_lt hself hword, hw.start⟩
        have hloop : q.adjustLoop (m.res s).rEnd wordSize (max (m.res s).rStart q.start) =
            some (firstWord m q s) := Request.adjustLoop_place hb hw hcount hx _ _
        have hroom := room_iff hcount hw.count hw.end' (hok.word s hs)
          (fun h => last_eq hcount h : firstWord m q s + q.count ≤ wordSize → _)
        rw [if_neg Bool.false_ne_true, hloop]
        dsimp only
        by_cases htakes : Takes m q s
        · rcases hroom.mpr htakes with ⟨hle, hge⟩
          rw [if_neg hle, if_pos hge, List.find?_cons_of_pos]
          · rfl
          · simp [htime, halloc, htakes]
        rw [hrest, List.find?_cons_of_neg (by simp [htakes])]
        split
        case isTrue => rfl
        case isFalse hle =>
          rw [if_neg (fun hge => htakes (hroom.mp ⟨hle, hge⟩))]
    -- Nothing behind the entry begins earlier.
    have hnone : (s :: rest).find? (fun s => inTime m q s && !m.allocated s &&
        decide (Takes m q s)) = none := by
      refine List.find?_eq_none.mpr (fun i hi hpred => htime ?_)
      rw [Bool.and_eq_true, Bool.and_eq_true] at hpred
      rcases of_decide_eq_true hpred.1.1 with ⟨hlimit, hmask⟩
      have hle : (m.res s).rStart ≤ (m.res i).rStart := by
        rcases List.mem_cons.mp hi with rfl | hi
        · exact le_rfl
        · exact hfirst i hi
      exact decide_eq_true ⟨le_trans hle hlimit, le_trans hle hmask⟩
    rw [hnone]
    have hnot := of_decide_eq_false (Bool.eq_false_iff.mpr htime)
    split
    case isTrue => rfl
    case isFalse hlimit =>
      rw [if_pos (Nat.lt_of_not_le (fun hmask => hnot ⟨not_lt.mp hlimit, hmask⟩))]
      rfl

/-- The entries that the passes look at. -/
theorem mem_reached (hok : m.Core) {x s : Nat} :
    s ∈ m.rmList.dropWhile (fun i => (m.res i).rEnd < x) ↔ s ∈ m.rmList ∧ x ≤ (m.res s).rEnd := by
  constructor
  · intro hs
    exact ⟨(List.dropWhile_sublist _).subset hs, le_of_mem_dropWhile hok.sorted.2 hs⟩
  rintro ⟨hs, hle⟩
  rw [← List.takeWhile_append_dropWhile (p := fun i => decide ((m.res i).rEnd < x)) (l := m.rmList),
    List.mem_append] at hs
  refine hs.resolve_left (fun hin => ?_)
  have hpred := List.mem_takeWhile_imp hin
  exact Nat.not_lt.mpr hle (of_decide_eq_true hpred)

theorem inReach_iff {s : Nat} :
    inReach m q s = true ↔ q.last q.start ≤ (m.res s).rEnd ∧ inTime m q s = true := by
  unfold inReach inTime
  rw [decide_eq_true_eq, decide_eq_true_eq]

/-- An entry with a range as it is asked for is in reach. -/
theorem Fits.inReach {a b s : Nat} (hf : Fits q a b) (hok : m.Core) (hw : q.Words)
    (hcount : 1 ≤ q.count) (hs : s ∈ m.rmList) (hstart : (m.res s).rStart ≤ a)
    (hend : b ≤ (m.res s).rEnd) : inReach m q s = true := by
  have hword := hok.word s hs
  have hmax := ulongMax_succ
  have hunits := hf.units
  have hle := hf.start
  have hle' := hf.end'
  have hmask := (Request.add_amask_lt (q := q) (show a < wordSize by omega) (by
    rw [Request.mod_align]
    exact Nat.mod_eq_zero_of_dvd hf.aligned)).1
  refine decide_eq_true ⟨?_, ?_, by omega⟩
  · rw [last_eq hcount (by omega)]
    omega
  · rw [sub_of_le hcount hw.count, sub_of_le (by omega) hw.end']
    omega

/-- Where a free entry has a range as it is asked for, there is room at its first
    address, and the range does not begin before that. -/
theorem takes_of_fits (hok : m.Core) (hcount : 1 ≤ q.count) (hnot : ¬Whole m q) {a b s : Nat}
    (hs : s ∈ m.rmList) (hfree : m.allocated s = false) (hf : Fits q a b)
    (hstart : (m.res s).rStart ≤ a) (hend : b ≤ (m.res s).rEnd) :
    Takes m q s ∧ q.place (max (m.res s).rStart q.start) ≤ a := by
  rcases fits_iff.mp hf with ⟨hunits, hle, hle', halign, hover⟩
  have hword := hok.word s hs
  have hplace : q.place (max (m.res s).rStart q.start) ≤ a :=
    Request.place_le (Nat.max_le.mpr ⟨hstart, hle⟩) halign hover
  have hmod : firstWord m q s ≤ q.place (max (m.res s).rStart q.start) := Nat.mod_le _ _
  refine ⟨⟨by omega, ?_⟩, hplace⟩
  rintro ⟨hzero, hlast, hall⟩
  -- The first address is zero only if the entry begins there.
  have hlt : q.place (max (m.res s).rStart q.start) < wordSize ∨
      wordSize ≤ q.place (max (m.res s).rStart q.start) := lt_or_ge _ _
  rcases hlt with hlt | hge
  · have hsame : firstWord m q s = q.place (max (m.res s).rStart q.start) := Nat.mod_eq_of_lt hlt
    have hfirst := q.le_place (max (m.res s).rStart q.start)
    rw [← hsame, hzero] at hfirst
    exact hnot ⟨by omega, hall, s, hs, hfree, by omega, hlast⟩
  · omega

/-! ## What is given -/

/-- What is cut out of a free entry, where it has room. -/
theorem carve_given (hok : m.Core) {s w : Nat} (hs : s ∈ m.rmList) (hfree : m.allocated s = false)
    (hcount : 1 ≤ q.count) (nowait nowait' : Bool) {i : Nat}
    (h : (carve m q s w nowait nowait').2 = some i) :
    ((carve m q s w nowait nowait').1.res i).rSharehead = none ∧
      ((m.res s).rStart ≤ w → w + q.count ≤ (m.res s).rEnd + 1 →
        (carve m q s w nowait nowait').1.range i = (w, w + q.count - 1)) := by
  have hnone := hok.sharehead_of_unshared hs (hok.unshared_of_free hfree)
  have hfresh : s ≠ m.nextRes := ne_of_lt (hok.fresh s hs)
  have hword := hok.word s hs
  have hlast : w + q.count ≤ (m.res s).rEnd + 1 → q.last w = w + q.count - 1 :=
    fun hroom => last_eq hcount (by omega)
  unfold carve at h ⊢
  dsimp only at h ⊢
  rw [size_eq hok hs] at h ⊢
  split at h
  case isTrue hsize =>
    rw [if_pos hsize]
    rw [Option.some.injEq] at h
    subst h
    refine ⟨by simpa [Manager.setFlags, Manager.put] using hnone, fun hstart hroom => ?_⟩
    have hexact := exact_of_mod (by omega) hcount hsize
    simp only [Manager.range, Manager.setFlags, Manager.put, update_self, Prod.mk.injEq]
    omega
  case isFalse hsize =>
  rw [if_neg hsize]
  split at h
  case isTrue => cases h
  case isFalse hmem =>
  rw [if_neg hmem]
  split at h
  case isTrue hmid =>
    rw [if_pos hmid]
    split at h
    case isTrue => cases h
    case isFalse hmem' =>
    rw [if_neg hmem']
    rw [Option.some.injEq] at h
    subst h
    have hne : m.nextRes ≠ m.nextRes + 1 := ne_of_lt (Nat.lt_succ_self _)
    simp only [Manager.insertAfter, Manager.setEnd, Manager.alloc, Manager.put,
      Manager.range, update_of_ne hfresh.symm, update_of_ne hne, update_self, true_and]
    exact fun _ hroom => by rw [hlast hroom]
  case isFalse hmid =>
  rw [if_neg hmid]
  split at h
  case isTrue hfront =>
    rw [if_pos hfront]
    rw [Option.some.injEq] at h
    subst h
    simp only [Manager.insertBefore, Manager.setStart, Manager.alloc, Manager.put,
      Manager.range, update_of_ne hfresh.symm, update_self, true_and]
    exact fun _ hroom => by rw [hlast hroom]
  case isFalse hfront =>
  rw [if_neg hfront]
  rw [Option.some.injEq] at h
  subst h
  simp only [Manager.insertAfter, Manager.setEnd, Manager.alloc, Manager.put,
    Manager.range, update_of_ne hfresh.symm, update_self, true_and]
  exact fun _ hroom => by rw [hlast hroom]

theorem carve_memory (m : Manager) (q : Request) (s w : Nat) :
    (carve m q s w true true).2 ≠ none := by
  unfold carve
  dsimp only
  split
  case isTrue => exact Option.some_ne_none _
  case isFalse =>
  rw [if_neg Bool.noConfusion]
  split
  case isTrue =>
    rw [if_neg Bool.noConfusion]
    exact Option.some_ne_none _
  case isFalse =>
    split
    case isTrue => exact Option.some_ne_none _
    case isFalse => exact Option.some_ne_none _

/-- A new sharer has the range of the entry. -/
theorem share_given (hok : m.Core) {s : Nat} (hs : s ∈ m.rmList) (nowait nowait' : Bool) {i : Nat}
    (h : (share m q s nowait nowait').2 = some i) :
    ((share m q s nowait nowait').1.res i).rSharehead ≠ none ∧
      (share m q s nowait nowait').1.range i = m.range s := by
  unfold share at h ⊢
  split at h
  case isTrue => cases h
  case isFalse hmem =>
  rw [if_neg hmem]
  dsimp only at h ⊢
  cases hhead : (m.res s).rSharehead with
  | some head =>
    rw [hhead] at h
    dsimp only at h ⊢
    rw [Option.some.injEq] at h
    subst h
    simp [Manager.alloc, Manager.put, Manager.range]
  | none =>
    rw [hhead] at h
    dsimp only at h ⊢
    split at h
    case isTrue => cases h
    case isFalse hmem' =>
    rw [if_neg hmem']
    rw [Option.some.injEq] at h
    subst h
    simp [Manager.alloc, Manager.put, Manager.range]

theorem share_memory (m : Manager) (q : Request) (s : Nat) : (share m q s true true).2 ≠ none := by
  unfold share
  rw [if_neg Bool.noConfusion]
  dsimp only
  split
  case h_1 => exact Option.some_ne_none _
  case h_2 =>
    rw [if_neg Bool.noConfusion]
    exact Option.some_ne_none _

/-! ## The second pass -/

section

variable (hok : m.Core) (hw : q.Words) (hcount : 1 ≤ q.count)
include hok hw hcount

/-- An entry is shared if its range is as it is asked for. -/
theorem sharable_iff (hb : BoundOk q) {s : Nat}
    (hs : s ∈ m.rmList) : (sharable m q s = true ∧ (m.res s).rEnd ≤ q.end') ↔
      shareType (m.res s).rFlags = shareType q.flags ∧ Fits q (m.res s).rStart (m.res s).rEnd := by
  have hself : (m.res s).rStart ≤ (m.res s).rEnd :=
    hok.ranges.nonempty _ (List.mem_map_of_mem hs)
  have hword := hok.word s hs
  have hcw := hw.count
  -- The size of an entry is its count, unless that is zero.
  have hsize : add (sub (m.res s).rEnd (m.res s).rStart) 1 = q.count ↔
      (m.res s).rEnd + 1 = (m.res s).rStart + q.count := by
    rw [size_eq hok hs]
    by_cases hlt : (m.res s).rEnd - (m.res s).rStart + 1 < wordSize
    · rw [Nat.mod_eq_of_lt hlt]
      omega
    have hall : (m.res s).rEnd - (m.res s).rStart + 1 = wordSize := by omega
    rw [hall, Nat.mod_self]
    omega
  have hcross : (m.res s).rEnd + 1 = (m.res s).rStart + q.count →
      (((m.res s).rStart ^^^ (m.res s).rEnd) &&& q.bmask = 0 ↔ ¬q.Over (m.res s).rStart) := by
    intro hunits
    have hlast : q.last (m.res s).rStart = (m.res s).rEnd := by
      rw [last_eq hcount (by omega)]
      omega
    have hiff := Request.crosses_iff hb hw hcount (lt_of_le_of_lt hself hword)
    rw [hlast] at hiff
    rw [← hiff, Ne, not_not]
  rw [sharable, decide_eq_true_eq, fits_iff, Request.mod_align, ← Nat.dvd_iff_mod_eq_zero, hsize]
  constructor
  · rintro ⟨⟨htype, hstart, hunits, halign, hbound⟩, hend⟩
    exact ⟨htype, hunits, hstart, hend, halign, (hcross hunits).mp hbound⟩
  · rintro ⟨htype, hunits, hstart, hend, halign, hover⟩
    exact ⟨⟨htype, hstart, hunits, halign, (hcross hunits).mpr hover⟩, hend⟩

/-- The second pass gives up nothing that can be shared. -/
theorem findShared_none (hb : BoundOk q)
    {l : List Nat} (hsub : l.Sublist m.rmList) (h : findShared m q l = none) {s : Nat}
    (hs : s ∈ l) : ¬Matches m q s := by
  rintro ⟨-, htype, hfits⟩
  rcases (sharable_iff hok hw hcount hb (hsub.subset hs)).mpr ⟨htype, hfits⟩ with ⟨hshare, hend⟩
  have hin : s ∈ l.takeWhile (fun i => (m.res i).rEnd ≤ q.end') := by
    have hsorted := hok.sorted.2.sublist hsub
    rw [← List.takeWhile_append_dropWhile (p := fun i => decide ((m.res i).rEnd ≤ q.end')) (l := l),
      List.mem_append] at hs
    refine hs.resolve_right (fun hlate => ?_)
    simp only [← Nat.lt_succ_iff] at hlate
    exact Nat.not_lt.mpr hend (le_of_mem_dropWhile hsorted hlate)
  exact List.find?_eq_none.mp h s hin hshare

theorem findShared_some (hb : BoundOk q)
    {l : List Nat} (hsub : l.Sublist m.rmList) (hnone : findFree m q l = some none) {s : Nat}
    (h : findShared m q l = some s) : s ∈ m.rmList ∧ Matches m q s := by
  rcases allocated_of_findShared hok hw hsub hnone h with ⟨hs, halloc, -⟩
  have hend := List.mem_takeWhile_imp (List.mem_of_find?_eq_some h)
  exact ⟨hs, halloc, (sharable_iff hok hw hcount hb hs).mp
    ⟨List.find?_some h, of_decide_eq_true hend⟩⟩

end

/-! ## The reservation -/

/-- The free entries with room that the first pass gets to. -/
def wanted (m : Manager) (q : Request) (s : Nat) : Bool :=
  inTime m q s && !m.allocated s && decide (Takes m q s)

theorem wanted_iff {s : Nat} :
    wanted m q s = true ↔ inTime m q s = true ∧ m.allocated s = false ∧ Takes m q s := by
  rw [wanted, Bool.and_eq_true, Bool.and_eq_true, Bool.not_eq_true', decide_eq_true_eq, and_assoc]

/-- The entries that are not over before the request would be. -/
def reached (m : Manager) (q : Request) : List Nat :=
  m.rmList.dropWhile (fun s => (m.res s).rEnd < q.last q.start)

theorem reached_sublist (m : Manager) (q : Request) : (reached m q).Sublist m.rmList :=
  List.dropWhile_sublist _

/-- A reservation in terms of the two passes. -/
theorem reserve_eq (hok : m.Core) (hw : q.Words) (hcount : 1 ≤ q.count) (hb : BoundOk q)
    (nowait nowait' : Bool) : reserveResourceBound m q nowait nowait' = some
      (match (reached m q).find? (wanted m q) with
        | some s => carve m q s (firstWord m q s) nowait nowait'
        | none => if has q.flags rfShareable then match findShared m q (reached m q) with
            | none => (m, none)
            | some s => share m q s nowait nowait'
          else (m, none)) := by
  have hsub := reached_sublist m q
  have hfind : findFree m q (reached m q) =
      some (((reached m q).find? (wanted m q)).map (fun s => (s, firstWord m q s))) :=
    findFree_eq hok hw hcount hb (fun i hi => hsub.subset hi) (hok.sorted.1.sublist hsub)
  have hreached : reached m q = m.rmList.dropWhile (fun s => (m.res s).rEnd < q.last q.start) := rfl
  unfold reserveResourceBound
  rw [← hreached]
  split
  case h_1 hl =>
    rw [hl, List.find?_nil]
    dsimp only
    split
    case isTrue => rfl
    case isFalse => rfl
  case h_2 =>
  rw [hfind]
  rcases (reached m q).find? (wanted m q) with _ | s
  · dsimp only [Option.map_none]
    split
    case isTrue =>
      rcases findShared m q (reached m q) with _ | s
      · rfl
      · rfl
    case isFalse => rfl
  · rfl

theorem find_none_iff (hok : m.Core) : (reached m q).find? (wanted m q) = none ↔
    ∀ s ∈ m.rmList, m.allocated s = false → inReach m q s = true → ¬Takes m q s := by
  rw [List.find?_eq_none]
  constructor
  · intro h s hs hfree hreach htakes
    rcases inReach_iff.mp hreach with ⟨hlast, htime⟩
    exact h s ((mem_reached hok).mpr ⟨hs, hlast⟩) (wanted_iff.mpr ⟨htime, hfree, htakes⟩)
  intro h s hs hwant
  rcases (mem_reached hok).mp hs with ⟨hin, hlast⟩
  rcases wanted_iff.mp hwant with ⟨htime, hfree, htakes⟩
  exact h s hin hfree (inReach_iff.mpr ⟨hlast, htime⟩) htakes

/-- Where all words are free and asked for, there is a range but no room. -/
theorem whole_spec (hok : m.Core) (hw : q.Words) (hcount : 1 ≤ q.count) (hb : BoundOk q)
    (h : Whole m q) : Available m q ∧ ∀ s ∈ m.rmList, m.allocated s = false ∧ ¬Takes m q s := by
  rcases h with ⟨hstart, hend, s, hs, hfree, hfirst, hlast⟩
  have hcw := hw.count
  have hmax := ulongMax_succ
  have hover : ¬q.Over 0 := by
    rintro ⟨hne, hlt⟩
    rw [Nat.zero_mod, Nat.zero_add] at hlt
    exact Nat.not_lt.mpr (hb.resolve_left hne).2 hlt
  have honly : ∀ t ∈ m.rmList, t = s := by
    rcases List.append_of_mem hs with ⟨pre, post, hlist⟩
    rcases hok.lt_of_split hlist with ⟨hpre, -, hpost⟩
    intro t ht
    have hword := hok.word t ht
    have hself : (m.res t).rStart ≤ (m.res t).rEnd :=
      hok.ranges.nonempty _ (List.mem_map_of_mem ht)
    rw [hlist, List.mem_append, List.mem_cons] at ht
    rcases ht with ht | ht | ht
    · have := hpre t ht
      omega
    · exact ht
    · have := hpost t ht
      omega
  refine ⟨⟨s, hs, hfree, 0, q.count - 1, ?_, by omega, by omega⟩, fun t ht => ?_⟩
  · exact fits_iff.mpr ⟨by omega, by omega, by omega, Nat.dvd_zero _, hover⟩
  rw [honly t ht]
  refine ⟨hfree, fun htakes => htakes.2 ⟨?_, hlast, hend⟩⟩
  have hplace : q.place (max (m.res s).rStart q.start) ≤ 0 :=
    Request.place_le (by omega) (Nat.dvd_zero _) hover
  rw [firstWord, Nat.le_zero.mp hplace, Nat.zero_mod]

/-- If there is a range as it is asked for, then the entry that is taken has one. -/
theorem first_fits (hok : m.Core) (hw : q.Words) (hcount : 1 ≤ q.count) (hb : BoundOk q)
    (havail : Available m q) (hnot : ¬Whole m q) {s : Nat}
    (hfind : (reached m q).find? (wanted m q) = some s) : (m.res s).rStart ≤ firstWord m q s ∧
      Fits q (firstWord m q s) (firstWord m q s + q.count - 1) := by
  rcases havail with ⟨g, hg, hfree, a, b, hf, hstart, hend⟩
  rcases takes_of_fits hok hcount hnot hg hfree hf hstart hend with ⟨htakes, hplace⟩
  rcases inReach_iff.mp (hf.inReach hok hw hcount hg hstart hend) with ⟨hlast, htime⟩
  have hgin : g ∈ reached m q := (mem_reached hok).mpr ⟨hg, hlast⟩
  have hgwant : wanted m q g = true := wanted_iff.mpr ⟨htime, hfree, htakes⟩
  rcases List.find?_eq_some_iff_append.mp hfind with ⟨hwant, pre, post, hl, hpre⟩
  have htaken := (wanted_iff.mp hwant).2.2
  have hword := hok.word g hg
  have hunits := hf.units
  have hle := hf.end'
  have horder := hok.ranges.order
  rw [Manager.ranges, List.pairwise_map] at horder
  have horder' := horder.sublist (reached_sublist m q)
  rw [hl, List.pairwise_append] at horder'
  -- The entry with the range is the one that is taken or behind it.
  have hbehind : g = s ∨ (m.res s).rEnd < (m.res g).rStart := by
    rw [hl, List.mem_append, List.mem_cons] at hgin
    rcases hgin with hgin | hgin | hgin
    · have hno := hpre g hgin
      rw [hgwant] at hno
      exact absurd hno (by decide)
    · exact Or.inl hgin
    · exact Or.inr ((List.pairwise_cons.mp horder'.2.1).1 g hgin)
  have hfirst : (m.res s).rStart ≤ (m.res g).rStart := by
    have hs := (reached_sublist m q).subset (List.mem_of_find?_eq_some hfind)
    have hself : (m.res s).rStart ≤ (m.res s).rEnd :=
      hok.ranges.nonempty _ (List.mem_map_of_mem hs)
    rcases hbehind with rfl | hlt
    · exact le_rfl
    · omega
  have hmono : q.place (max (m.res s).rStart q.start) ≤ q.place (max (m.res g).rStart q.start) :=
    Request.place_mono hb (by omega)
  have hsame : firstWord m q s = q.place (max (m.res s).rStart q.start) :=
    Nat.mod_eq_of_lt (by omega)
  have hge := q.le_place (max (m.res s).rStart q.start)
  refine ⟨by omega, fits_iff.mpr ⟨by omega, by omega, ?_, ?_, ?_⟩⟩
  · rcases hbehind with rfl | hlt
    · omega
    · have := htaken.1
      omega
  · rw [hsame]
    exact Request.dvd_place hb _
  · rw [hsame]
    exact Request.not_over_place hb _

/-- For every list as it should be, and every request for something with a boundary that
    has room for it, a reservation gives what it should exactly if not all words are free
    and asked for, and if where no free entry has a range as it is asked for there is no
    room in the entries in reach. -/
theorem reserve_honours (m : Manager) (hok : m.Ok) (q : Request) (hw : q.Words)
    (hcount : 1 ≤ q.count) (hb : BoundOk q) :
    (∀ nowait nowait', ∃ m' r, reserveResourceBound m q nowait nowait' = some (m', r) ∧
      Honoured m q nowait nowait' m' r) ↔ ReservesWell m q := by
  have hcore := hok.toCore
  have hsub := reached_sublist m q
  cases hfind : (reached m q).find? (wanted m q) with
  | none =>
    have hno := (find_none_iff hcore).mp hfind
    have hfree : findFree m q (reached m q) = some none := by
      have heq : findFree m q (reached m q) =
          some (((reached m q).find? (wanted m q)).map (fun s => (s, firstWord m q s))) :=
        findFree_eq hcore hw hcount hb (fun i hi => hsub.subset hi) (hcore.sorted.1.sublist hsub)
      rw [heq, hfind, Option.map_none]
    constructor
    · intro h
      refine ⟨fun hwhole => ?_, Or.inr hno⟩
      rcases whole_spec hcore hw hcount hb hwhole with ⟨havail, hall⟩
      rcases h true true with ⟨m', r, hres, hhon⟩
      rw [reserve_eq hcore hw hcount hb, hfind] at hres
      -- Nothing is allocated, so nothing is shared.
      have hnone : r = none := by
        dsimp only at hres
        split at hres
        case isTrue =>
          rcases hshared : findShared m q (reached m q) with _ | s
          · rw [hshared, Option.some.injEq, Prod.mk.injEq] at hres
            exact hres.2.symm
          rcases findShared_some hcore hw hcount hb hsub hfree hshared with ⟨hs, hmatch⟩
          have halloc := hmatch.1
          rw [(hall s hs).1] at halloc
          exact absurd halloc Bool.false_ne_true
        case isFalse =>
          rw [Option.some.injEq, Prod.mk.injEq] at hres
          exact hres.2.symm
      subst hnone
      exact (hhon rfl rfl).1 havail
    rintro ⟨hnot, -⟩ nowait nowait'
    have hnavail : ¬Available m q := by
      rintro ⟨g, hg, hgfree, a, b, hf, hstart, hend⟩
      exact hno g hg hgfree (hf.inReach hcore hw hcount hg hstart hend)
        (takes_of_fits hcore hcount hnot hg hgfree hf hstart hend).1
    rw [reserve_eq hcore hw hcount hb, hfind]
    dsimp only
    by_cases hshare : has q.flags rfShareable = true
    · rw [if_pos hshare]
      rcases hshared : findShared m q (reached m q) with _ | s
      · refine ⟨m, none, rfl, fun _ _ => ⟨hnavail, fun _ s hs hmatch => ?_⟩⟩
        have hreach := hmatch.2.2.inReach hcore hw hcount hs le_rfl le_rfl
        have hin : s ∈ reached m q := (mem_reached hcore).mpr ⟨hs, (inReach_iff.mp hreach).1⟩
        exact findShared_none hcore hw hcount hb hsub hshared hin hmatch
      rcases findShared_some hcore hw hcount hb hsub hfree hshared with ⟨hs, hmatch⟩
      refine ⟨(share m q s nowait nowait').1, (share m q s nowait nowait').2, rfl, ?_⟩
      rcases hr : (share m q s nowait nowait').2 with _ | i
      · rintro rfl rfl
        exact absurd hr (share_memory m q s)
      rcases share_given hcore hs nowait nowait' hr with ⟨hhead, hrange⟩
      have hfits := hmatch.2.2
      rcases Prod.ext_iff.mp hrange with ⟨hstart, hend⟩
      dsimp only [Manager.range] at hstart hend
      rw [← hstart, ← hend] at hfits
      exact ⟨hfits, Or.inr ⟨hhead, s, hs, hmatch, hrange⟩⟩
    · rw [if_neg hshare]
      exact ⟨m, none, rfl, fun _ _ => ⟨hnavail, fun hyes => absurd hyes hshare⟩⟩
  | some s =>
    have hs := hsub.subset (List.mem_of_find?_eq_some hfind)
    rcases wanted_iff.mp (List.find?_some hfind) with ⟨-, hsfree, htakes⟩
    constructor
    · intro h
      refine ⟨fun hwhole => ((whole_spec hcore hw hcount hb hwhole).2 s hs).2 htakes, Or.inl ?_⟩
      rcases h true true with ⟨m', r, hres, hhon⟩
      rw [reserve_eq hcore hw hcount hb, hfind, Option.some.injEq] at hres
      dsimp only at hres
      rcases r with _ | i
      · exact absurd (congrArg Prod.snd hres) (carve_memory m q s _)
      have hgiven := carve_given hcore hs hsfree hcount true true (congrArg Prod.snd hres)
      rw [hres] at hgiven
      -- What is given is not shared, so it is in a free entry.
      rcases hhon with ⟨hf, hfree | hshared⟩
      · rcases hfree with ⟨-, t, ht, htfree, hstart, hend⟩
        exact ⟨t, ht, htfree, _, _, hf, hstart, hend⟩
      · exact absurd hgiven.1 hshared.1
    rintro ⟨hnot, havail⟩ nowait nowait'
    have hsome : Available m q := by
      refine havail.resolve_right (fun hno => ?_)
      have hnone := (find_none_iff hcore).mpr hno
      rw [hfind] at hnone
      exact absurd hnone (Option.some_ne_none s)
    rcases first_fits hcore hw hcount hb hsome hnot hfind with ⟨hstart, hfits⟩
    rw [reserve_eq hcore hw hcount hb, hfind]
    refine ⟨(carve m q s (firstWord m q s) nowait nowait').1,
      (carve m q s (firstWord m q s) nowait nowait').2, rfl, ?_⟩
    rcases hr : (carve m q s (firstWord m q s) nowait nowait').2 with _ | i
    · rintro rfl rfl
      exact absurd hr (carve_memory m q s _)
    rcases carve_given hcore hs hsfree hcount nowait nowait' hr with ⟨hhead, hrange⟩
    rcases Prod.ext_iff.mp (hrange hstart htakes.1) with ⟨hfirst, hlast⟩
    dsimp only [Manager.range] at hfirst hlast
    have hend : firstWord m q s + q.count - 1 ≤ (m.res s).rEnd := by
      have := htakes.1
      omega
    refine ⟨?_, Or.inl ⟨hhead, s, hs, hsfree, ?_, ?_⟩⟩
    · rw [hfirst, hlast]
      exact hfits
    · rw [hfirst]
      exact hstart
    · rw [hlast]
      exact hend

end

/-- A manager that was given one region from zero on. -/
def oneRegion (end' : Nat) : Manager := (manageRegion (rmanInit 0 0) 0 end' true).1

theorem oneRegion_ok (end' : Nat) (h : end' < wordSize) : (oneRegion end').Ok :=
  (manageRegion_ok (init_ok 0 0).ok ⟨zero_le, nofun⟩ h true).1

/-- Sixteen units, a multiple of sixteen, in a block of 64. -/
theorem reserve_honours_sixteen : ∃ m' r,
    reserveResourceBound (oneRegion 0xffff) ⟨5, 0xffff, 16, 64, 4#32 <<< 10⟩ true true =
      some (m', r) ∧
    Honoured (oneRegion 0xffff) ⟨5, 0xffff, 16, 64, 4#32 <<< 10⟩ true true m' r := by
  refine (reserve_honours (oneRegion 0xffff) (oneRegion_ok 0xffff (by decide))
    ⟨5, 0xffff, 16, 64, 4#32 <<< 10⟩ ⟨by decide, by decide, by decide, by decide⟩ (by decide)
    (Or.inr ⟨⟨6, by decide⟩, by decide⟩)).mpr
    ⟨?_, Or.inl ⟨0, by decide, by decide, 16, 31, ?_, ?_⟩⟩ true true
  · exact fun h => absurd h.1 (by decide)
  · exact fits_iff.mpr ⟨by decide, by decide, by decide, by decide, by decide⟩
  · exact ⟨by decide, by decide⟩

/-- A range that ends behind the end that was asked for, since its start is rounded up.
    And all words, of which not even one is given. -/
theorem reserve_misses : ((oneRegion 0xffff).Ok ∧ ¬∃ m' r,
      reserveResourceBound (oneRegion 0xffff) ⟨1, 0x1000, 0x1000, 0, 12#32 <<< 10⟩ true true =
        some (m', r) ∧
      Honoured (oneRegion 0xffff) ⟨1, 0x1000, 0x1000, 0, 12#32 <<< 10⟩ true true m' r) ∧
    (oneRegion ulongMax).Ok ∧ ¬∃ m' r,
      reserveResourceBound (oneRegion ulongMax) ⟨0, ulongMax, 1, 0, 0#32⟩ true true = some (m', r) ∧
      Honoured (oneRegion ulongMax) ⟨0, ulongMax, 1, 0, 0#32⟩ true true m' r := by
  have hlate : (reserveResourceBound (oneRegion 0xffff) ⟨1, 0x1000, 0x1000, 0, 12#32 <<< 10⟩ true
      true).map (fun r => (r.2, (r.1.res 1).rEnd)) = some (some 1, 0x1fff) := by decide
  have hnone : (reserveResourceBound (oneRegion ulongMax) ⟨0, ulongMax, 1, 0, 0#32⟩ true
      true).map Prod.snd = some none := by decide
  refine ⟨⟨oneRegion_ok _ (by decide), ?_⟩, oneRegion_ok _ (by decide), ?_⟩
  · rintro ⟨m', r, hres, hhon⟩
    rw [hres, Option.map_some, Option.some.injEq, Prod.mk.injEq] at hlate
    dsimp only at hlate
    rcases hlate with ⟨rfl, hend⟩
    have hle := hhon.1.end'
    rw [hend] at hle
    exact absurd hle (by decide)
  rintro ⟨m', r, hres, hhon⟩
  rw [hres, Option.map_some, Option.some.injEq] at hnone
  dsimp only at hnone
  subst hnone
  refine (hhon rfl rfl).1 ⟨0, by decide, by decide, 0, 0, ?_, by decide, by decide⟩
  exact fits_iff.mpr ⟨by decide, by decide, by decide, by decide, by decide⟩

end FreeBSDKern.Rman
