import FreeBSDKern.Radix.Trie

/-!
# The Shape Invariant of the Page Trie

What a trie looks like from the link down: `Wf c p n` says every key under the
link `n` spells `p` from level `c` upwards, and that the nodes there keep
their promises. The prefix is a parameter rather than something read off the
tree, which is what lets the invariant follow the recursion of the walks: a
child in slot `s` of a node whose keys share `q` is well formed for the prefix
`q * 16 + s`.

Path compression shows in one line of the definition. A node may sit any
number of levels below the link that holds it, so its own prefix `q` is only
required to extend `p`, and `wf_lift` is the converse the removal needs: a
subtree that was fine under a low node is fine under any link the node itself
could have hung from.

## Main definitions

* `Wf`: The invariant of a subtree, under a level and a prefix.

## Theorems

* `keybarr_eq_false_iff`: The barrier passes exactly the node's own prefix.
* `wf_lookup`: A page found under a link has the index and the prefix asked.
* `wf_lift`: A subtree may be moved up to the link above its node.
* `lookup_update`: Looking up through a node with one link rewritten.
* `liveChildren_update`: Counting the links after one is rewritten.
* `wellFormed_of_wf`: The invariant gives the promises of every node.
-/

namespace FreeBSDKern.Radix

open Function

/-- Every key under the link spells `p` from level `c` upwards, and every node
    there is as its header says. -/
def Wf : Nat → Nat → Node → Prop
  | _, _, .null => True
  | c, p, .leaf m => above c m.pindex = p
  | c, p, .inner rnOwner rnCount rnClev rnChild =>
    rnClev < c ∧ rnClev ≤ 15 ∧ 2 ≤ rnCount ∧ rnCount = liveChildren rnChild ∧
    ∃ q, q / 16 ^ (c - (rnClev + 1)) = p ∧
      (rnClev < 15 → rnOwner.toNat = q * 16 ^ (rnClev + 1)) ∧ (rnClev = 15 → q = 0) ∧
      ∀ s : Fin 16, Wf rnClev (q * 16 + s.val) (rnChild s)

theorem keybarr_eq_false_iff (rnOwner : Pindex) (rnClev q : Nat) (idx : Pindex)
    (hle : rnClev ≤ 15) (hown : rnClev < 15 → rnOwner.toNat = q * 16 ^ (rnClev + 1))
    (htop : rnClev = 15 → q = 0) :
    vmRadixKeybarr rnOwner rnClev idx = false ↔ above (rnClev + 1) idx = q := by
  rw [vmRadixKeybarr, vmRadixLimit]
  by_cases hlt : rnClev < 15
  · rw [if_pos hlt, bne_eq_false_iff_eq, ← BitVec.toNat_inj,
      toNat_trimkey idx (rnClev + 1) (by rw [vmRadixLimit]; omega), hown hlt]
    exact Nat.mul_left_inj (Nat.pos_iff_ne_zero.mp (Nat.pow_pos (by omega)))
  -- At the top level there is no barrier, and no digits above it either.
  have heq : rnClev = 15 := by omega
  rw [if_neg hlt, heq, above_limit, htop heq]
  simp only

/-- Splitting a prefix that a lower level extends by one digit. -/
theorem div_pow_of_digit (q s c clev : Nat) (hs : s < 16) (hc : clev < c) :
    (q * 16 + s) / 16 ^ (c - clev) = q / 16 ^ (c - (clev + 1)) := by
  have hpow : 16 ^ (c - clev) = 16 * 16 ^ (c - (clev + 1)) := by
    rw [show c - clev = c - (clev + 1) + 1 by omega, Nat.pow_succ, Nat.mul_comm]
  rw [hpow, ← Nat.div_div_eq_div_mul]
  congr 1
  omega

/-- A subtree that hangs under a node may be moved up to the node's own
    link. -/
theorem wf_lift (c p clev q s : Nat) (n : Node) (hs : s < 16) (hc : clev < c)
    (hq : q / 16 ^ (c - (clev + 1)) = p) (hn : Wf clev (q * 16 + s) n) : Wf c p n := by
  cases n with
  | null => trivial
  | leaf m =>
    simp only [Wf] at hn ⊢
    rw [show c = clev + (c - clev) by omega, above_add, hn, div_pow_of_digit q s c clev hs hc, hq]
  | inner owner count lev child =>
    simp only [Wf] at hn ⊢
    rcases hn with ⟨hlt, hle, htwo, hlive, q', hq', hown, htop, hchild⟩
    refine ⟨by omega, hle, htwo, hlive, q', ?_, hown, htop, hchild⟩
    rw [show c - (lev + 1) = clev - (lev + 1) + (c - clev) by omega, Nat.pow_add,
      ← Nat.div_div_eq_div_mul, hq', div_pow_of_digit q s c clev hs hc, hq]

/-- A page found under a link is the one asked for, and its index carries the
    link's prefix. -/
theorem wf_lookup (n : Node) : ∀ (c p : Nat), Wf c p n → ∀ (i : Pindex) (m : Page),
    vmRadixLookup n i = some m → m.pindex = i ∧ above c i = p := by
  induction n with
  | null =>
    intro c p _ i m h
    simp only [vmRadixLookup, reduceCtorEq] at h
  | leaf m' =>
    intro c p hwf i m h
    simp only [vmRadixLookup, Option.ite_none_right_eq_some, Option.some.injEq] at h
    rcases h with ⟨hi, hm⟩
    simp only [Wf, hi] at hwf
    exact ⟨hm ▸ hi, hwf⟩
  | inner owner count clev child ih =>
    intro c p hwf i m h
    simp only [Wf] at hwf
    rcases hwf with ⟨hlt, hle, -, -, q, hq, hown, htop, hchild⟩
    simp only [vmRadixLookup] at h
    cases hbarr : vmRadixKeybarr owner clev i with
    | true => rw [hbarr, if_pos rfl] at h; simp only [reduceCtorEq] at h
    | false =>
      rw [hbarr, if_neg (by decide)] at h
      have habove := (keybarr_eq_false_iff owner clev q i hle hown htop).mp hbarr
      refine ⟨(ih _ clev _ (hchild _) i m h).1, ?_⟩
      rw [show c = clev + 1 + (c - (clev + 1)) by omega, above_add, habove, hq]

/-- The same for pages that are merely stored there. -/
theorem wf_hasPage (n : Node) : ∀ (c p : Nat), Wf c p n → ∀ (m : Page),
    HasPage n m → above c m.pindex = p := by
  induction n with
  | null => intro c p _ m h; cases h
  | leaf m' =>
    intro c p hwf m h
    simp only [HasPage] at h
    rw [← h]
    exact hwf
  | inner owner count clev child ih =>
    intro c p hwf m h
    simp only [Wf] at hwf
    rcases hwf with ⟨hlt, -, -, -, q, hq, -, -, hchild⟩
    rcases h with ⟨s, hs⟩
    have hlow := ih s clev _ (hchild s) m hs
    rw [show c = clev + (c - clev) by omega, above_add, hlow,
      div_pow_of_digit q s c clev s.isLt hlt, hq]

/-- Reading through a node after one link was rewritten: the slot decides
    which side answers. -/
theorem lookup_update (owner : Pindex) (count clev : Nat) (child : Fin 16 → Node) (s : Fin 16)
    (n : Node) (i : Pindex) : vmRadixLookup (.inner owner count clev (update child s n)) i =
      if vmRadixKeybarr owner clev i then none
      else if vmRadixSlot i clev = s then vmRadixLookup n i
      else vmRadixLookup (child (vmRadixSlot i clev)) i := by
  simp only [vmRadixLookup]
  by_cases hs : vmRadixSlot i clev = s
  · rw [if_pos hs, hs, update_self]
  · rw [if_neg hs, update_of_ne hs]

theorem wf_update (clev q : Nat) (child : Fin 16 → Node) (s : Fin 16) (n : Node)
    (hchild : ∀ s : Fin 16, Wf clev (q * 16 + s.val) (child s))
    (hn : Wf clev (q * 16 + s.val) n) :
    ∀ s' : Fin 16, Wf clev (q * 16 + s'.val) (update child s n s') := by
  intro s'
  by_cases h : s' = s
  · rw [h, update_self]
    exact hn
  · rw [update_of_ne h]
    exact hchild s'

/-- Rewriting one link moves the count by what the link held before and
    after. -/
theorem liveChildren_update (child : Fin 16 → Node) (s : Fin 16) (n : Node) :
    liveChildren (update child s n) + (if (child s).isNull then 0 else 1) =
      liveChildren child + (if n.isNull then 0 else 1) := by
  have hother : ∀ s' ∈ Finset.univ.erase s, (update child s n s').isNull = (child s').isNull := by
    intro s' hs'
    rw [update_of_ne (Finset.ne_of_mem_erase hs')]
  -- Split slot `s` off both counts; the rest of the array is untouched.
  have hsplit : ∀ f : Fin 16 → Node, liveChildren f = (if (f s).isNull then 0 else 1) +
        ((Finset.univ.erase s).filter (fun s' => (f s').isNull = false)).card := by
    intro f
    rw [liveChildren, ← Finset.insert_erase (Finset.mem_univ s), Finset.filter_insert,
      Finset.erase_insert (Finset.notMem_erase s _)]
    by_cases hf : (f s).isNull = false
    · rw [if_pos hf, Finset.card_insert_of_notMem (by simp), hf]
      simp only [Bool.false_eq_true, if_false]
      omega
    · rw [if_neg hf, if_pos (by simpa using hf), Nat.zero_add]
  rw [hsplit (update child s n), hsplit child, update_self,
    Finset.filter_congr (fun s' hs' => by rw [hother s' hs'])]
  omega

theorem liveChildren_const : liveChildren (fun _ => Node.null) = 0 := by
  simp [liveChildren, Node.isNull]

/-- Below the top level clearing the low bits is what the source's trim
    does. -/
theorem clearLow_eq_trimkey (index : Pindex) (level : Nat) (hlev : level ≤ vmRadixLimit) :
    clearLow (level * vmRadixWidth) index = vmRadixTrimkey index level := by
  rw [vmRadixLimit] at hlev
  rw [vmRadixTrimkey, clearLow]
  split
  · rw [Nat.mod_eq_of_lt (by rw [vmRadixWidth]; omega)]
  have hz : level = 0 := by omega
  rw [hz]
  simp only [vmRadixWidth, Nat.zero_mul, BitVec.ushiftRight_zero, BitVec.shiftLeft_zero]

theorem nodeOk_of_wf (c p : Nat) (owner : Pindex) (count clev : Nat) (child : Fin 16 → Node)
    (h : Wf c p (.inner owner count clev child)) :
    NodeOk (fun lev => lev < vmRadixLimit) owner count clev child := by
  simp only [Wf] at h
  rcases h with ⟨hlt, hle, htwo, hlive, q, hq, hown, htop, hchild⟩
  refine ⟨htwo, ?_, hlive, hle, ?_, ?_⟩
  · rw [hlive, liveChildren]
    exact le_trans (Finset.card_le_univ _) (by simp [vmRadixCount])
  · intro s owner' count' clev' child' hs
    have hsub := hchild s
    rw [hs] at hsub
    simp only [Wf] at hsub
    exact hsub.1
  intro hbelow m hm
  rw [vmRadixLimit] at hbelow
  -- The page lies under this node, so it shares the node's own prefix.
  rcases hm with ⟨s, hs⟩
  have hlow := wf_hasPage (child s) clev _ (hchild s) m hs
  have hup : above (clev + 1) m.pindex = q := by
    have hsucc := above_succ clev m.pindex
    omega
  rw [clearLow_eq_trimkey m.pindex (clev + 1) (by rw [vmRadixLimit]; omega),
    ← BitVec.toNat_inj, toNat_trimkey m.pindex (clev + 1) (by rw [vmRadixLimit]; omega),
    hown hbelow, hup]

theorem wf_subNode (n x : Node) (hsub : SubNode n x) :
    ∀ (c p : Nat), Wf c p n → ∃ c' p', Wf c' p' x := by
  induction hsub with
  | refl n => intro c p h; exact ⟨c, p, h⟩
  | child owner count clev child s x _ ih =>
    intro c p h
    simp only [Wf] at h
    rcases h with ⟨-, -, -, -, q, -, -, -, hchild⟩
    exact ih clev _ (hchild s)

/-- The invariant gives every interior node its promises, the owner clause on
    all levels but the top. -/
theorem wellFormed_of_wf (c p : Nat) (root : Node) (h : Wf c p root) :
    WellFormed (fun lev => lev < vmRadixLimit) root := by
  intro owner count clev child hsub
  rcases wf_subNode root _ hsub c p h with ⟨c', p', h'⟩
  exact nodeOk_of_wf c' p' owner count clev child h'

/-- A node with the pages 3 and 5. -/
def twoPages : Node :=
  .inner 0#64 2 0 (vmRadixAddpage (vmRadixAddpage (fun _ => .null) 5#64 0 ⟨5#64, 200⟩)
    3#64 0 ⟨3#64, 100⟩)

theorem wf_twoPages : Wf 16 0 twoPages := by
  have h5 := wf_update 0 0 (fun _ => .null) (vmRadixSlot 5#64 0) (.leaf ⟨5#64, 200⟩)
    (fun _ => trivial) (by simp only [Wf]; decide)
  have h3 := wf_update 0 0 _ (vmRadixSlot 3#64 0) (.leaf ⟨3#64, 100⟩) h5
    (by simp only [Wf]; decide)
  simp only [twoPages, Wf]
  exact ⟨by decide, by decide, by decide, by decide, 0, by decide, by decide, by decide, h3⟩

end FreeBSDKern.Radix
