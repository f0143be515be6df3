import FreeBSDKern.Radix.Position
import FreeBSDKern.Radix.Shape

/-!
# Ordered Lookups find the Nearest Page

The invariant of the loop has two halves. `Linked` says that the stack is the way
from the root to the node at hand and that the search key lies in the region of
every link on it. The other half says that the key has moved over no page: a page
lies at or beyond the key exactly when it lies at or beyond the index that was asked
for. So the loop only has to find the nearest page to its own key, and where a page
or the bottom of the stack is reached, the answer is the one for the index.

`Budget` bounds the rounds that are left. The loop first goes down along the index.
Once it has ascended, the key is at the start of a slot, and each further round
either ascends again or goes down into a node that lies wholly beyond the key. From
such a node it never comes back.

## Main definitions

* `Nearest`: The answer to a lookup.
* `Linked`: The stack is the way to the node.
* `OnWay`: The invariant of the loop.
* `Budget`: What bounds its rounds.

## Theorems

* `ascend_spec`, `enter_spec`, `loopRound_spec`: A round keeps the invariant.
* `ordered_lookups`: Both lookups answer with the nearest page.
-/

namespace FreeBSDKern.Radix

/-- The page nearest to an index, or that there is none. -/
def Nearest (pos : Pindex → Nat) (root : Node) (index : Pindex) : Option Page → Prop
  | none => ∀ m, HasPage root m → pos m.pindex < pos index
  | some m => HasPage root m ∧ pos index ≤ pos m.pindex ∧
      ∀ m', HasPage root m' → pos index ≤ pos m'.pindex → pos m.pindex ≤ pos m'.pindex

/-- The stack leads from the root to the link at level `c` that holds `n`, and the key
    lies in the region of that link. -/
def Linked (root : Node) : List Node → Node → Nat → Pindex → Prop
  | [], n, c, _ => n = root ∧ c = 16
  | .inner rnOwner rnCount rnClev rnChild :: stack, n, c, index =>
    c = rnClev ∧ n = rnChild (vmRadixSlot index rnClev) ∧
      vmRadixKeybarr rnOwner rnClev index = false ∧
      ∃ c', Linked root stack (.inner rnOwner rnCount rnClev rnChild) c' index
  | .leaf _ :: _, _, _, _ => False
  | .null :: _, _, _, _ => False

/-! ## What is under a node -/

-- What the header of a node says about the keys below it.
theorem wf_inner (c p : Nat) (owner : Pindex) (count clev : Nat) (child : Fin 16 → Node)
    (h : Wf c p (.inner owner count clev child)) :
    clev < c ∧ clev ≤ 15 ∧ ∃ q, q / 16 ^ (c - (clev + 1)) = p ∧
      (clev < 15 → owner.toNat = q * 16 ^ (clev + 1)) ∧
      (∀ i, vmRadixKeybarr owner clev i = false ↔ above (clev + 1) i = q) ∧
      (∀ s, Wf clev (q * 16 + s.val) (child s)) ∧ ∀ s m, HasPage (child s) m →
        above (clev + 1) m.pindex = q ∧ vmRadixSlot m.pindex clev = s := by
  simp only [Wf] at h
  rcases h with ⟨hlt, hle, -, -, q, hq, hown, htop, hchild⟩
  refine ⟨hlt, hle, q, hq, hown, fun i => keybarr_eq_false_iff owner clev q i hle hown htop,
    hchild, fun s m hm => ?_⟩
  have hlow := wf_hasPage (child s) clev _ (hchild s) m hm
  have hsucc := above_succ clev m.pindex
  exact ⟨by omega, Fin.ext (by omega)⟩

variable {i j : Pindex} {x y P : Nat}

theorem above_congr {c c' : Nat} (hc : c ≤ c') (h : above c i = above c j) :
    above c' i = above c' j := by
  rw [show c' = c + (c' - c) by omega, above_add, above_add, h]

theorem wf_nonempty (n : Node) : ∀ (c p : Nat), Wf c p n → n.isNull = false → ∃ m, HasPage n m := by
  induction n with
  | null => intro c p _ h; exact absurd h (by decide)
  | leaf m => intro c p _ _; exact ⟨m, rfl⟩
  | inner owner count clev child ih =>
    intro c p h _
    simp only [Wf] at h
    rcases h with ⟨-, -, htwo, hlive, q, -, -, -, hchild⟩
    rw [hlive, liveChildren] at htwo
    rcases Finset.card_pos.mp (lt_of_lt_of_le Nat.zero_lt_two htwo) with ⟨s, hs⟩
    rcases ih s clev _ (hchild s) (Finset.mem_filter.mp hs).2 with ⟨m, hm⟩
    exact ⟨m, s, hm⟩

section Links

variable (root : Node) (hroot : Wf 16 0 root)
include hroot

-- The link holds what its level and the prefix of the key promise, and each node of
-- the stack takes a level of its own.
theorem linked_wf : ∀ (stack : List Node) (n : Node) (c : Nat) (i : Pindex),
    Linked root stack n c i → Wf c (above c i) n ∧ c + stack.length ≤ 16 := by
  intro stack
  induction stack with
  | nil =>
    intro n c i h
    rcases h with ⟨rfl, rfl⟩
    rw [above_limit]
    exact ⟨hroot, le_refl _⟩
  | cons top stack ih =>
    intro n c i h
    cases top with
    | null | leaf m => cases h
    | inner owner count clev child =>
      rcases h with ⟨rfl, rfl, hbarr, c', hup⟩
      rcases ih _ c' i hup with ⟨hwf, hlen⟩
      rcases wf_inner _ _ _ _ _ _ hwf with ⟨hlt, -, q, -, -, hkey, hchild, -⟩
      have hq := (hkey i).mp hbarr
      have hsub := hchild (vmRadixSlot i c)
      rw [← hq, ← above_succ] at hsub
      exact ⟨hsub, by rw [List.length_cons]; omega⟩

-- The way stays the same for every key in the region of the link.
theorem linked_congr : ∀ (stack : List Node) (n : Node) (c : Nat) (i j : Pindex),
    Linked root stack n c i → above c i = above c j → Linked root stack n c j := by
  intro stack
  induction stack with
  | nil => intro n c i j h _; exact h
  | cons top stack ih =>
    intro n c i j h hij
    cases top with
    | null | leaf m => cases h
    | inner owner count clev child =>
      rcases h with ⟨rfl, rfl, hbarr, c', hup⟩
      rcases linked_wf root hroot stack _ c' i hup with ⟨hwf, -⟩
      rcases wf_inner _ _ _ _ _ _ hwf with ⟨hlt, -, q, -, -, hkey, -, -⟩
      have hslot : vmRadixSlot i c = vmRadixSlot j c := by
        apply Fin.ext
        rw [val_slot, val_slot, hij]
      refine ⟨rfl, by rw [hslot], ?_, c', ih _ c' i j hup (above_congr (le_of_lt hlt) hij)⟩
      rw [hkey, ← above_congr (Nat.le_succ c) hij]
      exact (hkey i).mp hbarr

-- A page with the prefix of a link is stored under it.
theorem linked_pages : ∀ (stack : List Node) (n : Node) (c : Nat) (i : Pindex),
    Linked root stack n c i → ∀ m, HasPage n m ↔ HasPage root m ∧ above c m.pindex = above c i := by
  intro stack
  induction stack with
  | nil =>
    intro n c i h m
    rcases h with ⟨rfl, rfl⟩
    rw [above_limit, above_limit]
    exact ⟨fun hm => ⟨hm, rfl⟩, fun hm => hm.1⟩
  | cons top stack ih =>
    intro n c i h m
    cases top with
    | null | leaf m => cases h
    | inner owner count clev child =>
      rcases h with ⟨rfl, rfl, hbarr, c', hup⟩
      rcases linked_wf root hroot stack _ c' i hup with ⟨hwf, -⟩
      rcases wf_inner _ _ _ _ _ _ hwf with ⟨hlt, -, q, -, -, hkey, -, hpages⟩
      have hq := (hkey i).mp hbarr
      have hparent := ih _ c' i hup m
      constructor
      · intro hm
        rcases hpages _ m hm with ⟨hmq, hslot⟩
        refine ⟨(hparent.mp ⟨_, hm⟩).1, ?_⟩
        rw [above_succ, above_succ c i, hmq, hq, hslot]
      intro hm
      rcases hparent.mpr ⟨hm.1, above_congr (le_of_lt hlt) hm.2⟩ with ⟨s, hs⟩
      have hslot : vmRadixSlot i c = s := by
        rw [← (hpages s m hs).2]
        apply Fin.ext
        rw [val_slot, val_slot, hm.2]
      rw [hslot]
      exact hs

end Links

/-! ## The slots of a node -/

-- Positions with the same prefix compare alike with a position of another prefix.
theorem le_iff_of_div_eq {z : Nat} (h : x / P = y / P) (hz : z / P ≠ x / P) : x ≤ z ↔ y ≤ z := by
  constructor
  · intro hle
    by_contra hlt
    have h1 := Nat.div_le_div_right (c := P) hle
    have h2 := Nat.div_le_div_right (c := P) (le_of_lt (Nat.lt_of_not_le hlt))
    omega
  intro hle
  by_contra hlt
  have h1 := Nat.div_le_div_right (c := P) hle
  have h2 := Nat.div_le_div_right (c := P) (le_of_lt (Nat.lt_of_not_le hlt))
  omega

theorem lt_of_div_lt (h : x / P < y / P) : x < y := by
  by_contra hle
  have := Nat.div_le_div_right (c := P) (not_lt.mp hle)
  omega

-- An aligned position is the first with its prefix.
theorem aligned_le (hx : x % P = 0) (h : x / P ≤ y / P) : x ≤ y := by
  have h1 := Nat.div_add_mod x P
  rw [hx, Nat.add_zero] at h1
  calc x = P * (x / P) := h1.symm
    _ ≤ P * (y / P) := Nat.mul_le_mul_left _ h
    _ ≤ y := Nat.mul_div_le y P

section Slots

variable {d : Direction} {pos : Pindex → Nat} (law : Lawful d pos)
variable {clev q : Nat} {child : Fin 16 → Node} (hclev : clev ≤ 15)
variable (hpages : ∀ s m, HasPage (child s) m →
  above (clev + 1) m.pindex = q ∧ vmRadixSlot m.pindex clev = s)
include law hclev

-- Under one node the prefix of a position is the slot and what is above it.
theorem div_eq_iff_slot (hi : above (clev + 1) i = q) (hj : above (clev + 1) j = q) :
    pos i / 16 ^ clev = pos j / 16 ^ clev ↔ vmRadixSlot i clev = vmRadixSlot j clev := by
  rw [← law.above clev i j (by omega), above_succ, above_succ clev j, hi, hj, Fin.ext_iff]
  omega

theorem div_succ_eq (hi : above (clev + 1) i = q) (hj : above (clev + 1) j = q) :
    pos i / 16 ^ clev / 16 = pos j / 16 ^ clev / 16 := by
  have h := (law.above (clev + 1) i j (by omega)).mp (hi.trans hj.symm)
  rw [Nat.pow_succ, ← Nat.div_div_eq_div_mul, ← Nat.div_div_eq_div_mul] at h
  exact h

theorem above_of_div (hi : above (clev + 1) i = q)
    (h : pos j / 16 ^ clev / 16 = pos i / 16 ^ clev / 16) : above (clev + 1) j = q := by
  rw [← hi, law.above (clev + 1) j i (by omega), Nat.pow_succ, ← Nat.div_div_eq_div_mul,
    ← Nat.div_div_eq_div_mul]
  exact h

include hpages

/-- What the slots beyond a key have for it. -/
def EdgeOk (pos : Pindex → Nat) (clev q : Nat) (child : Fin 16 → Node) (i : Pindex) : Edge → Prop
  | .page m => (∃ s, HasPage (child s) m) ∧ pos i / 16 ^ clev < pos m.pindex / 16 ^ clev ∧
      ∀ s m', HasPage (child s) m' → pos i / 16 ^ clev < pos m'.pindex / 16 ^ clev →
        pos m.pindex ≤ pos m'.pindex
  | .node j n => n = child (vmRadixSlot j clev) ∧ (∃ o k l c, n = .inner o k l c) ∧
      above (clev + 1) j = q ∧ pos j % 16 ^ clev = 0 ∧ pos i / 16 ^ clev < pos j / 16 ^ clev ∧
      ∀ s m', HasPage (child s) m' → pos i / 16 ^ clev < pos m'.pindex / 16 ^ clev →
        pos j ≤ pos m'.pindex
  | .none j => above (clev + 1) j = q ∧
      (∀ s m', HasPage (child s) m' → pos m'.pindex / 16 ^ clev ≤ pos i / 16 ^ clev) ∧
      pos i / 16 ^ clev ≤ pos j / 16 ^ clev ∧
      (pos i / 16 ^ clev % 16 < 15 → pos i / 16 ^ clev < pos j / 16 ^ clev)

-- By induction on the slots that are left. The key stays at the start of the slot.
theorem scan_spec : ∀ (left : Nat) (i : Pindex), above (clev + 1) i = q →
    pos i % 16 ^ clev = 0 → left = 15 - pos i / 16 ^ clev % 16 →
    ∃ e, scan d clev child left (vmRadixSlot i clev) i = some e ∧ EdgeOk pos clev q child i e := by
  intro left
  induction left with
  | zero =>
    intro i hi _ hleft
    refine ⟨.none i, rfl, hi, fun s m' hm' => ?_, le_refl _, fun h => by omega⟩
    have h := div_succ_eq law hclev (hpages s m' hm').1 hi
    omega
  | succ left ih =>
    intro i hi halign hleft
    have hdigit : pos i / 16 ^ clev % 16 < 15 := by omega
    rcases law.advance clev i hclev hdigit with ⟨j, hadv, hj⟩
    have hpos : 0 < 16 ^ clev := Nat.pow_pos (by omega)
    have hdiv : pos j / 16 ^ clev = pos i / 16 ^ clev + 1 := by
      rw [hj, Nat.add_div_right _ hpos]
    have hmod : pos j % 16 ^ clev = 0 := by rw [hj, Nat.add_mod_right, halign]
    have hup : above (clev + 1) j = q := above_of_div law hclev hi (by omega)
    have hslot := law.next clev i j hclev hdigit hdiv
    -- A page beyond this slot either lies in the next one or beyond that, too.
    have hsplit : ∀ s m', HasPage (child s) m' → pos i / 16 ^ clev < pos m'.pindex / 16 ^ clev →
        (s = vmRadixSlot j clev ∧ pos j ≤ pos m'.pindex) ∨
          pos j / 16 ^ clev < pos m'.pindex / 16 ^ clev := by
      intro s m' hm' hlt
      rcases Nat.eq_or_lt_of_le (show pos j / 16 ^ clev ≤ pos m'.pindex / 16 ^ clev by omega)
        with heq | hlt'
      · refine Or.inl ⟨?_, aligned_le hmod (le_of_eq heq)⟩
        rw [← (hpages s m' hm').2]
        exact ((div_eq_iff_slot law hclev hup (hpages s m' hm').1).mp heq).symm
      · exact Or.inr hlt'
    have hskip : (∀ m', ¬ HasPage (child (vmRadixSlot j clev)) m') →
        ∀ e, EdgeOk pos clev q child j e → EdgeOk pos clev q child i e := by
      intro hnone e he
      have hfar : ∀ s m', HasPage (child s) m' → pos i / 16 ^ clev < pos m'.pindex / 16 ^ clev →
          pos j / 16 ^ clev < pos m'.pindex / 16 ^ clev := by
        intro s m' hm' hlt
        rcases hsplit s m' hm' hlt with ⟨rfl, -⟩ | h
        · exact absurd hm' (hnone m')
        · exact h
      cases e with
      | page m =>
        rcases he with ⟨hin, hlt, hleast⟩
        exact ⟨hin, by omega, fun s m' hm' h => hleast s m' hm' (hfar s m' hm' h)⟩
      | node k n =>
        rcases he with ⟨hn, hinner, hk, hkm, hlt, hleast⟩
        exact ⟨hn, hinner, hk, hkm, by omega, fun s m' hm' h => hleast s m' hm' (hfar s m' hm' h)⟩
      | none k =>
        rcases he with ⟨hk, hno, hle, -⟩
        refine ⟨hk, fun s m' hm' => ?_, by omega, fun _ => by omega⟩
        by_contra hc
        have h1 := hfar s m' hm' (by omega)
        have h2 := hno s m' hm'
        omega
    simp only [scan, hadv, Option.bind_some, ← hslot]
    cases hcs : child (vmRadixSlot j clev) with
    | null =>
      rcases ih j hup hmod (by omega) with ⟨e, he, hok⟩
      refine ⟨e, he, hskip (fun m' hm' => ?_) e hok⟩
      rw [hcs] at hm'
      exact hm'
    | leaf m =>
      have hm : HasPage (child (vmRadixSlot j clev)) m := by rw [hcs]; rfl
      have hfront := (div_eq_iff_slot law hclev hup (hpages _ m hm).1).mpr
        (hpages _ m hm).2.symm
      have hle : pos j ≤ pos m.pindex := aligned_le hmod (le_of_eq hfront)
      refine ⟨.page m, if_pos ((law.reaches m.pindex j).mpr hle), ⟨_, hm⟩, by omega, ?_⟩
      intro s m' hm' hlt
      rcases hsplit s m' hm' hlt with ⟨rfl, -⟩ | h
      · rw [hcs] at hm'
        rw [hm']
      · rw [hfront] at h
        exact le_of_lt (lt_of_div_lt h)
    | inner o k l c =>
      refine ⟨.node j (.inner o k l c), rfl, hcs.symm, ⟨o, k, l, c, rfl⟩, hup, hmod,
        by omega, fun s m' hm' hlt => ?_⟩
      rcases hsplit s m' hm' hlt with ⟨-, h⟩ | h
      · exact h
      · exact le_of_lt (lt_of_div_lt h)

/-- What a node has for a key that its barrier lets through. -/
def FoundOk (pos : Pindex → Nat) (clev q : Nat) (child : Fin 16 → Node) (i : Pindex) : Edge → Prop
  | .page m => (∃ s, HasPage (child s) m) ∧ pos i ≤ pos m.pindex ∧
      ∀ s m', HasPage (child s) m' → pos i ≤ pos m'.pindex → pos m.pindex ≤ pos m'.pindex
  | .node j n => n = child (vmRadixSlot j clev) ∧ (∃ o k l c, n = .inner o k l c) ∧
      above (clev + 1) j = q ∧ (j = i ∨ pos j % 16 ^ clev = 0) ∧
      ∀ s m', HasPage (child s) m' → (pos i ≤ pos m'.pindex ↔ pos j ≤ pos m'.pindex)
  | .none j => above (clev + 1) j = q ∧
      ∀ s m', HasPage (child s) m' → pos m'.pindex < pos i ∧ pos m'.pindex < pos j

-- Nothing in the slot of the key reaches it, so what the scan finds is what there is.
theorem scanRest_spec (i : Pindex) (hi : above (clev + 1) i = q)
    (hslot : ∀ m, HasPage (child (vmRadixSlot i clev)) m → pos m.pindex < pos i) :
    ∃ e, scanRest d clev child (vmRadixSlot i clev) i = some e ∧ FoundOk pos clev q child i e := by
  have hbelow : ∀ s m, HasPage (child s) m →
      pos m.pindex / 16 ^ clev ≤ pos i / 16 ^ clev → pos m.pindex < pos i := by
    intro s m hm hle
    rcases Nat.eq_or_lt_of_le hle with heq | hlt
    · refine hslot m ?_
      have hs := (div_eq_iff_slot law hclev (hpages s m hm).1 hi).mp heq
      rw [← hs, (hpages s m hm).2]
      exact hm
    · exact lt_of_div_lt hlt
  rw [scanRest]
  split
  case isTrue hlast =>
    have hdigit := (law.last clev i hclev).mp hlast
    refine ⟨.none i, rfl, hi, fun s m' hm' => ?_⟩
    have hdiv := div_succ_eq law hclev (hpages s m' hm').1 hi
    have hlt := hbelow s m' hm' (by omega)
    exact ⟨hlt, hlt⟩
  case isFalse hlast =>
  have hdigit : pos i / 16 ^ clev % 16 < 15 := by
    have := mt (law.last clev i hclev).mpr hlast
    omega
  have hpos : 0 < 16 ^ clev := Nat.pow_pos (by omega)
  have halign := law.align clev i hclev
  have hdiv : pos (d.align i clev) / 16 ^ clev = pos i / 16 ^ clev := by
    rw [halign, Nat.mul_div_cancel _ hpos]
  have hup : above (clev + 1) (d.align i clev) = q :=
    above_of_div law hclev hi (by rw [hdiv])
  have hsame := (div_eq_iff_slot law hclev hup hi).mp hdiv
  rcases scan_spec law hclev hpages (d.left (vmRadixSlot i clev)) (d.align i clev) hup
    (by rw [halign, Nat.mul_mod_left]) (by rw [law.left clev i hclev, hdiv]) with ⟨e, he, hok⟩
  rw [hsame] at he
  refine ⟨e, he, ?_⟩
  have hfar : ∀ s m', HasPage (child s) m' → pos i ≤ pos m'.pindex →
      pos i / 16 ^ clev < pos m'.pindex / 16 ^ clev := by
    intro s m' hm' hle
    by_contra hc
    have := hbelow s m' hm' (by omega)
    omega
  cases e with
  | page m =>
    rcases hok with ⟨hin, hlt, hleast⟩
    rw [hdiv] at hlt hleast
    exact ⟨hin, le_of_lt (lt_of_div_lt hlt),
      fun s m' hm' hle => hleast s m' hm' (hfar s m' hm' hle)⟩
  | node j n =>
    rcases hok with ⟨hn, hinner, hj, hmod, hlt, hleast⟩
    rw [hdiv] at hlt hleast
    refine ⟨hn, hinner, hj, Or.inr hmod, fun s m' hm' => ⟨fun hle => ?_, fun hle => ?_⟩⟩
    · exact hleast s m' hm' (hfar s m' hm' hle)
    · have := lt_of_div_lt hlt
      omega
  | none j =>
    rcases hok with ⟨hj, hno, -, hlt⟩
    rw [hdiv] at hno hlt
    refine ⟨hj, fun s m' hm' => ⟨hbelow s m' hm' (hno s m' hm'), ?_⟩⟩
    have h1 := hno s m' hm'
    have h2 := hlt hdigit
    exact lt_of_div_lt (lt_of_le_of_lt h1 h2)

theorem findEdge_spec (i : Pindex) (hi : above (clev + 1) i = q) :
    ∃ e, findEdge d clev child i = some e ∧ FoundOk pos clev q child i e := by
  rw [findEdge]
  cases hcs : child (vmRadixSlot i clev) with
  | null =>
    refine scanRest_spec law hclev hpages i hi (fun m hm => ?_)
    rw [hcs] at hm
    cases hm
  | leaf m =>
    have hm : HasPage (child (vmRadixSlot i clev)) m := by rw [hcs]; rfl
    have hfront := (div_eq_iff_slot law hclev hi (hpages _ m hm).1).mpr
      (hpages _ m hm).2.symm
    simp only
    split
    case isTrue hreach =>
      have hle := (law.reaches m.pindex i).mp hreach
      refine ⟨.page m, rfl, ⟨_, hm⟩, hle, fun s m' hm' hle' => ?_⟩
      rcases Nat.eq_or_lt_of_le (Nat.div_le_div_right (c := 16 ^ clev) hle') with heq | hlt
      · -- The slot of the key holds this page only.
        have hs := (div_eq_iff_slot law hclev hi (hpages s m' hm').1).mp heq
        rw [(hpages s m' hm').2] at hs
        rw [← hs, hcs] at hm'
        rw [hm']
      · rw [hfront] at hlt
        exact le_of_lt (lt_of_div_lt hlt)
    case isFalse hreach =>
    refine scanRest_spec law hclev hpages i hi (fun m' hm' => ?_)
    rw [hcs] at hm'
    rw [← hm']
    exact Nat.lt_of_not_le (mt (law.reaches m.pindex i).mpr hreach)
  | inner o k l c =>
    exact ⟨.node i (.inner o k l c), rfl, hcs.symm, ⟨o, k, l, c, rfl⟩, hi, Or.inl rfl,
      fun _ _ _ => Iff.rfl⟩

end Slots

/-! ## Rounds -/

/-- The invariant: the stack is the way to the node at hand, which holds the key, and
    the key has moved over no page. -/
structure OnWay (pos : Pindex → Nat) (root : Node) (index : Pindex) (i : Pindex)
    (stack : List Node) (n : Node) (c : Nat) : Prop where
  linked : Linked root stack n c i
  same : ∀ m, HasPage root m → (pos index ≤ pos m.pindex ↔ pos i ≤ pos m.pindex)

/-- What bounds the rounds that are left. The loop goes down along the index, has come
    back up and stands at the start of a slot, or is in a node that lies beyond. -/
def Budget (pos : Pindex → Nat) (i : Pindex) (stack : List Node) (n : Node) (clev rounds : Nat) :
    Prop :=
  33 + clev ≤ rounds ∨ (pos i % 16 ^ clev = 0 ∧ 17 + stack.length ≤ rounds) ∨
    ((∀ m, HasPage n m → pos i ≤ pos m.pindex) ∧ clev + 1 ≤ rounds)

/-- What a round may end with when so many are left. -/
def RoundOk (pos : Pindex → Nat) (root : Node) (index : Pindex) (rounds : Nat) : Round → Prop
  | .done r => Nearest pos root index r
  | .next s => ∃ owner count clev child c, s.rnode = .inner owner count clev child ∧
      vmRadixKeybarr owner clev s.index = false ∧ OnWay pos root index s.index s.stack s.rnode c ∧
      Budget pos s.index s.stack s.rnode clev rounds

section Rounds

variable {d : Direction} {pos : Pindex → Nat} (law : Lawful d pos)
variable {root : Node} (hroot : Wf 16 0 root) {index : Pindex}
include law hroot

-- A key may move within the region of a link, as long as the pages there see no
-- difference. The others never do.
theorem OnWay.move {stack : List Node} {n : Node} {c : Nat} (h : OnWay pos root index i stack n c)
    (hij : above c i = above c j)
    (hsame : ∀ m, HasPage n m → (pos i ≤ pos m.pindex ↔ pos j ≤ pos m.pindex)) :
    OnWay pos root index j stack n c := by
  refine ⟨linked_congr root hroot stack n c i j h.linked hij, fun m hm => ?_⟩
  rw [h.same m hm]
  by_cases hreg : above c m.pindex = above c i
  · exact hsame m ((linked_pages root hroot stack n c i h.linked m).mpr ⟨hm, hreg⟩)
  have hc : c ≤ 16 := by
    have := (linked_wf root hroot stack n c i h.linked).2
    omega
  refine le_iff_of_div_eq ((law.above c i j hc).mp hij) (fun hz => hreg ?_)
  exact (law.above c m.pindex i hc).mpr hz

-- Nothing under the link reaches the key. By induction on the stack.
theorem ascend_spec (rounds : Nat) : ∀ (stack : List Node) (n : Node) (c : Nat) (i : Pindex),
    OnWay pos root index i stack n c → (∀ m, HasPage n m → pos m.pindex < pos i) →
    16 + stack.length ≤ rounds →
    ∃ r, ascend d i stack = some r ∧ RoundOk pos root index rounds r := by
  intro stack
  induction stack with
  | nil =>
    intro n c i h hnone _
    refine ⟨.done none, rfl, fun m hm => ?_⟩
    have hlt := hnone m (by rw [h.linked.1]; exact hm)
    by_contra hc
    have := (h.same m hm).mp (not_lt.mp hc)
    omega
  | cons top stack ih =>
    intro n c i h hnone hlen
    rw [List.length_cons] at hlen
    cases top with
    | null | leaf m => cases h.linked
    | inner owner count clev child =>
      rcases h.linked with ⟨rfl, rfl, hbarr, c', hup⟩
      rcases linked_wf root hroot stack _ c' i hup with ⟨hwf, hlen'⟩
      rcases wf_inner _ _ _ _ _ _ hwf with ⟨hlt, hclev, q, -, -, hkey, -, hpages⟩
      have hq := (hkey i).mp hbarr
      have hon : OnWay pos root index i stack (.inner owner count c child) c' :=
        ⟨hup, h.same⟩
      -- A page of the node that reaches the key lies in a slot beyond.
      have hbeyond : ∀ s m, HasPage (child s) m → pos i ≤ pos m.pindex →
          pos i / 16 ^ c < pos m.pindex / 16 ^ c := by
        intro s m hm hle
        refine lt_of_le_of_ne (Nat.div_le_div_right hle) (fun heq => ?_)
        have hs := (div_eq_iff_slot law hclev hq (hpages s m hm).1).mp heq
        rw [(hpages s m hm).2] at hs
        have := hnone m (by rw [hs]; exact hm)
        omega
      rw [ascend]
      split
      case isTrue hlast =>
        have hdigit := (law.last c i hclev).mp hlast
        refine ih _ c' i hon (fun m hm => ?_) (by omega)
        rcases hm with ⟨s, hs⟩
        by_contra hc
        have h1 := hbeyond s m hs (not_lt.mp hc)
        have h2 := div_succ_eq law hclev (hpages s m hs).1 hq
        omega
      case isFalse hlast =>
      have hdigit : pos i / 16 ^ c % 16 < 15 := by
        have := mt (law.last c i hclev).mpr hlast
        omega
      have hpos : 0 < 16 ^ c := Nat.pow_pos (by omega)
      rcases law.resume c i hclev hdigit with ⟨j, hres, hj⟩
      have hdiv : pos j / 16 ^ c = pos i / 16 ^ c + 1 := by
        rw [hj, Nat.add_div_right _ hpos, Nat.mul_div_cancel _ hpos]
      have hmod : pos j % 16 ^ c = 0 := by
        rw [hj, Nat.add_mod_right, Nat.mul_mod_left]
      have hjq : above (c + 1) j = q := above_of_div law hclev hq (by omega)
      have hjbarr := (hkey j).mpr hjq
      have hij : above c' i = above c' j := above_congr hlt (hq.trans hjq.symm)
      have hsame : ∀ m, HasPage (.inner owner count c child) m →
          (pos i ≤ pos m.pindex ↔ pos j ≤ pos m.pindex) := by
        intro m hm
        rcases hm with ⟨s, hs⟩
        constructor
        · intro hle
          exact aligned_le hmod (by have := hbeyond s m hs hle; omega)
        intro hle
        have : pos i < pos j := lt_of_div_lt (by rw [hdiv]; omega)
        omega
      have hleft : 17 + stack.length ≤ rounds := by omega
      rw [hres]
      simp only [Option.bind_some, hjbarr]
      exact ⟨_, rfl, owner, count, c, child, c', rfl, hjbarr, hon.move law hroot hij hsame,
        Or.inr (Or.inl ⟨hmod, hleft⟩)⟩

-- Coming to a node. Unless the loop is on its first way down, the whole node lies beyond
-- the key, so there is no going back.
theorem enter_spec (rounds : Nat) (i : Pindex) (stack : List Node) (c : Nat) (owner : Pindex)
    (count clev : Nat) (child : Fin 16 → Node)
    (h : OnWay pos root index i stack (.inner owner count clev child) c)
    (hbudget : (33 + clev ≤ rounds ∧ 16 + stack.length ≤ rounds) ∨
      ((∀ m, HasPage (.inner owner count clev child) m → pos i ≤ pos m.pindex) ∧
        clev + 1 ≤ rounds)) :
    ∃ r, enter d i stack (.inner owner count clev child) = some r ∧
      RoundOk pos root index rounds r := by
  rcases linked_wf root hroot stack _ c i h.linked with ⟨hwf, hlen⟩
  rcases wf_inner _ _ _ _ _ _ hwf with ⟨hlt, hclev, q, hpre, hown, hkey, -, hpages⟩
  rw [enter]
  split
  case isFalse hbarr =>
    refine ⟨_, rfl, owner, count, clev, child, c, rfl, by simpa using hbarr, h, ?_⟩
    rcases hbudget with ⟨hfirst, -⟩ | hbeyond
    · exact Or.inl hfirst
    · exact Or.inr (Or.inr hbeyond)
  case isTrue hbarr =>
  have hne : above (clev + 1) i ≠ q := by
    intro hq
    rw [(hkey i).mpr hq] at hbarr
    exact absurd hbarr (by decide)
  have hlow : clev < 15 := by
    by_contra hc
    rw [vmRadixKeybarr, vmRadixLimit, if_neg hc] at hbarr
    exact absurd hbarr (by decide)
  rcases law.enter clev owner q i hlow (hown hlow) hne with ⟨hup, hbefore⟩ | ⟨j, hin, hjq, hle⟩
  · rw [hup]
    simp only [Option.bind_some]
    have hnone : ∀ m, HasPage (.inner owner count clev child) m → pos m.pindex < pos i := by
      intro m hm
      rcases hm with ⟨s, hs⟩
      exact hbefore m.pindex (hpages s m hs).1
    rcases hbudget with ⟨-, hstack⟩ | ⟨hbeyond, -⟩
    · exact ascend_spec law hroot rounds stack _ c i h hnone hstack
    exfalso
    rcases wf_nonempty _ _ _ hwf rfl with ⟨m, hm⟩
    have h1 := hbeyond m hm
    have h2 := hnone m hm
    omega
  have hjbarr := (hkey j).mpr hjq
  have hij : above c i = above c j := by
    rw [← hpre, show c = clev + 1 + (c - (clev + 1)) by omega, above_add _ _ j, hjq,
      ← show c = clev + 1 + (c - (clev + 1)) by omega]
  rw [hin]
  simp only [Option.bind_some, hjbarr]
  have hpage : ∀ m, HasPage (.inner owner count clev child) m →
      pos i ≤ pos m.pindex ∧ pos j ≤ pos m.pindex := by
    intro m hm
    rcases hm with ⟨s, hs⟩
    exact hle m.pindex (hpages s m hs).1
  refine ⟨_, rfl, owner, count, clev, child, c, rfl, hjbarr,
    h.move law hroot hij (fun m hm => ?_), Or.inr (Or.inr ⟨fun m hm => (hpage m hm).2, by omega⟩)⟩
  exact ⟨fun _ => (hpage m hm).2, fun _ => (hpage m hm).1⟩

/-- One round from the slot at hand, when there is a round left for it. -/
theorem loopRound_spec (rounds : Nat) (s : Search)
    (h : RoundOk pos root index (rounds + 1) (.next s)) :
    ∃ r, loopRound d s = some r ∧ RoundOk pos root index rounds r := by
  rcases s with ⟨i, stack, n⟩
  rcases h with ⟨owner, count, clev, child, c, rfl, hbarr, hon, hbudget⟩
  dsimp only at hbarr hon hbudget
  rcases linked_wf root hroot stack _ c i hon.linked with ⟨hwf, hlen⟩
  rcases wf_inner _ _ _ _ _ _ hwf with ⟨hlt, hclev, q, hpre, -, hkey, hchild, hpages⟩
  have hq := (hkey i).mp hbarr
  rcases findEdge_spec law hclev hpages i hq with ⟨e, he, hok⟩
  -- Pages of the trie that are not under this node never tell the keys of its region apart.
  have houtside : ∀ j m, above (clev + 1) j = q → HasPage root m → ¬ (∃ s, HasPage (child s) m) →
      pos m.pindex / 16 ^ (clev + 1) ≠ pos j / 16 ^ (clev + 1) := by
    intro j m hj hm hout heq
    have hreg := (law.above (clev + 1) m.pindex j (by omega)).mpr heq
    refine hout ((linked_pages root hroot stack _ c i hon.linked m).mpr
      ⟨hm, above_congr hlt ?_⟩)
    rw [hreg, hj, hq]
  simp only [loopRound, he, Option.bind_some]
  cases e with
  | page m =>
    rcases hok with ⟨hin, hle, hleast⟩
    refine ⟨.done (some m), rfl, ?_⟩
    have hmroot := ((linked_pages root hroot stack _ c i hon.linked m).mp hin).1
    refine ⟨hmroot, (hon.same m hmroot).mpr hle, fun m' hm' hle' => ?_⟩
    have hi' := (hon.same m' hm').mp hle'
    by_cases hunder : ∃ s, HasPage (child s) m'
    · rcases hunder with ⟨s, hs⟩
      exact hleast s m' hs hi'
    rcases hin with ⟨s, hs⟩
    have hmq := (hpages s m hs).1
    have heq := (law.above (clev + 1) i m.pindex (by omega)).mp (hq.trans hmq.symm)
    exact (le_iff_of_div_eq heq (houtside i m' hq hm' hunder)).mp hi'
  | node j n =>
    rcases hok with ⟨rfl, ⟨o, k, l, ch, hinner⟩, hjq, hstart, hsame⟩
    have hij : above c i = above c j := above_congr hlt (hq.trans hjq.symm)
    have hon' := hon.move law hroot hij (fun m hm => by
      rcases hm with ⟨s, hs⟩
      exact hsame s m hs)
    have hjbarr := (hkey j).mpr hjq
    have hsub := hchild (vmRadixSlot j clev)
    rw [hinner] at hsub
    have hl := (wf_inner _ _ _ _ _ _ hsub).1
    have hdown : OnWay pos root index j (.inner owner count clev child :: stack)
        (.inner o k l ch) clev :=
      ⟨⟨rfl, hinner.symm, hjbarr, c, hon'.linked⟩, hon'.same⟩
    have hroom : 0 < clev ∧ stack.length < vmRadixLimit := by
      rw [vmRadixLimit]
      omega
    rw [hinner]
    simp only [if_pos hroom]
    refine enter_spec law hroot rounds j _ clev o k l ch hdown ?_
    rw [List.length_cons]
    -- A key at the start of its slot has all of that slot before it.
    have hall : pos j % 16 ^ clev = 0 → ∀ m, HasPage (.inner o k l ch) m →
        pos j ≤ pos m.pindex := by
      intro hmod m hm
      rw [← hinner] at hm
      refine aligned_le hmod (le_of_eq ?_)
      exact (div_eq_iff_slot law hclev hjq (hpages _ m hm).1).mpr (hpages _ m hm).2.symm
    rcases hstart with rfl | hmod
    · rcases hbudget with hfirst | ⟨hmod, hback⟩ | ⟨hbeyond, hleft⟩
      · exact Or.inl ⟨by omega, by omega⟩
      · exact Or.inr ⟨hall hmod, by omega⟩
      refine Or.inr ⟨fun m hm => hbeyond m ?_, by omega⟩
      rw [← hinner] at hm
      exact ⟨_, hm⟩
    · refine Or.inr ⟨hall hmod, ?_⟩
      rcases hbudget with hfirst | ⟨-, hback⟩ | ⟨-, hleft⟩ <;> omega
  | none j =>
    rcases hok with ⟨hjq, hnone⟩
    have hij : above c i = above c j := above_congr hlt (hq.trans hjq.symm)
    have hon' := hon.move law hroot hij (fun m hm => by
      rcases hm with ⟨s, hs⟩
      have := hnone s m hs
      omega)
    refine ascend_spec law hroot rounds stack _ c j hon' (fun m hm => ?_) ?_
    · rcases hm with ⟨s, hs⟩
      exact (hnone s m hs).2
    rcases hbudget with hfirst | ⟨-, hback⟩ | ⟨hbeyond, -⟩
    · omega
    · exact Nat.le_of_succ_le_succ (by omega)
    exfalso
    rcases wf_nonempty _ _ _ hwf rfl with ⟨m, hm⟩
    have h1 := hbeyond m hm
    rcases hm with ⟨s, hs⟩
    have h2 := (hnone s m hs).1
    omega

theorem searchFrom_spec : ∀ (rounds : Nat) (r : Round), RoundOk pos root index rounds r →
    ∃ m, searchFrom d rounds (some r) = some m ∧ Nearest pos root index m := by
  intro rounds
  induction rounds with
  | zero =>
    intro r h
    cases r with
    | done m => exact ⟨m, by rw [searchFrom], h⟩
    | next s =>
      rcases h with ⟨_, _, _, _, _, _, _, _, hbudget⟩
      rcases hbudget with h | ⟨-, h⟩ | ⟨-, h⟩ <;> omega
  | succ rounds ih =>
    intro r h
    cases r with
    | done m => exact ⟨m, by rw [searchFrom], h⟩
    | next s =>
      rcases loopRound_spec law hroot rounds s h with ⟨r', hr', hok⟩
      rw [searchFrom, hr']
      exact ih r' hok

theorem lookupNearest_spec (index : Pindex) (rounds : Nat) (hrounds : 48 ≤ rounds) :
    ∃ m, lookupNearest d rounds root index = some m ∧ Nearest pos root index m := by
  cases root with
  | null => exact ⟨none, rfl, nofun⟩
  | leaf m =>
    refine ⟨_, rfl, ?_⟩
    split
    case isTrue hreach =>
      refine ⟨rfl, (law.reaches m.pindex index).mp hreach, fun m' hm' _ => ?_⟩
      rw [show m = m' from hm']
    case isFalse hreach =>
      intro m' hm'
      rw [← show m = m' from hm']
      exact Nat.lt_of_not_le (mt (law.reaches m.pindex index).mpr hreach)
  | inner owner count clev child =>
    have hclev := (wf_inner _ _ _ _ _ _ hroot).2.1
    rcases enter_spec law hroot rounds index [] 16 owner count clev child
      ⟨⟨rfl, rfl⟩, fun _ _ => Iff.rfl⟩ (Or.inl ⟨by omega, by simp only [List.length_nil]; omega⟩)
      with ⟨r, hr, hok⟩
    rw [lookupNearest, hr]
    exact searchFrom_spec law hroot rounds r hok

end Rounds

/-- The page with the least index at or above the one that was asked for, or `NULL`
    where there is none. -/
def LeastGe (root : Node) (index : Pindex) : Option Page → Prop
  | none => ∀ m, HasPage root m → m.pindex < index
  | some m => HasPage root m ∧ index ≤ m.pindex ∧
      ∀ m', HasPage root m' → index ≤ m'.pindex → m.pindex ≤ m'.pindex

/-- The page with the greatest index at or below the one that was asked for, or `NULL`
    where there is none. -/
def GreatestLe (root : Node) (index : Pindex) : Option Page → Prop
  | none => ∀ m, HasPage root m → index < m.pindex
  | some m => HasPage root m ∧ m.pindex ≤ index ∧
      ∀ m', HasPage root m' → m'.pindex ≤ index → m'.pindex ≤ m.pindex

theorem toLast_le_iff (i j : Pindex) : toLast i ≤ toLast j ↔ j ≤ i := by
  have hi := i.isLt
  have hj := j.isLt
  rw [toLast, toLast, BitVec.le_def]
  omega

/-- On every trie in shape both lookups come to an end, within forty-eight rounds, with
    the nearest page. They answer at all, so no push met a full stack of `VM_RADIX_LIMIT`
    nodes and no addition or subtraction wrapped. -/
theorem ordered_lookups (root : Node) (hwf : Wf 16 0 root) (index : Pindex) (rounds : Nat)
    (hrounds : 48 ≤ rounds) :
    (∃ m, vmRadixLookupGe rounds root index = some m ∧ LeastGe root index m) ∧
      ∃ m, vmRadixLookupLe rounds root index = some m ∧ GreatestLe root index m := by
  constructor
  · rcases lookupNearest_spec lawful_upwards hwf index rounds hrounds with ⟨m, hm, hnear⟩
    refine ⟨m, hm, ?_⟩
    cases m with
    | none | some m => exact hnear
  rcases lookupNearest_spec lawful_downwards hwf index rounds hrounds with ⟨m, hm, hnear⟩
  refine ⟨m, hm, ?_⟩
  cases m with
  | none =>
    intro m' hm'
    have hlt := hnear m' hm'
    refine BitVec.not_le.mp (fun hle => ?_)
    have := (toLast_le_iff index m'.pindex).mpr hle
    omega
  | some m =>
    rcases hnear with ⟨hin, hle, hleast⟩
    refine ⟨hin, (toLast_le_iff _ _).mp hle, fun m' hm' hle' => ?_⟩
    exact (toLast_le_iff _ _).mp (hleast m' hm' ((toLast_le_iff _ _).mpr hle'))

theorem ordered_lookups_between :
    (∃ m, vmRadixLookupGe 48 twoPages 4#64 = some m ∧ LeastGe twoPages 4#64 m) ∧
      ∃ m, vmRadixLookupLe 48 twoPages 4#64 = some m ∧ GreatestLe twoPages 4#64 m :=
  ordered_lookups twoPages wf_twoPages 4#64 48 (by decide)

example : vmRadixLookupGe 48 twoPages 4#64 = some (some ⟨5#64, 200⟩) := by decide

end FreeBSDKern.Radix
