import FreeBSDKern.Lib.Run
import FreeBSDKern.Radix.Shape

/-!
# The Page Trie is a Finite Map

Each walk of the trie does to the stored pages what the operation of the same
name does to a partial function on indices, and never meets a panic on the
way. The walks are recursive on the link they stand at, so each has one lemma,
by induction on the subtree, that gives the subtree afterwards, its invariant
for the same level and prefix, and what a lookup under it now answers.

Insertion has the three ends of the source: an empty slot, a page to part
ways with, a node whose barrier turns the key away. The last two build the
same thing, a node with one page and one subtree that differ in their digit,
and `fork_spec` is about that node. Removal never tests a barrier; that is
sound because it is only asked for keys that are there, and a lookup that
found the key passed every barrier on the path.

`MapOp` and `specStep` are the abstract store, in which an insertion is only
admitted where the index is free and a removal or replacement where it is
taken. `trie_refines_map` runs any admitted sequence on the trie.

## Main definitions

* `MapOp`: The operations of the store.
* `specStep`: What an operation does to a partial function, where admitted.
* `execStep`: What it does to the trie.
* `Represents`: A trie holding exactly the pages of a partial function.

## Theorems

* `fork_spec`: The node an insertion allocates.
* `insertWalk_spec`: Inserting an absent page.
* `removeWalk_spec`: Removing a present index.
* `replaceWalk_spec`: Replacing a present page.
* `reclaimInt_spec`: Freeing every node meets no bad count.
* `trie_refines_map`: Every admitted sequence runs, and reads back as the map.
* `top_level_owner_untrimmed`: The owner clause stops short of the top level.
-/

namespace FreeBSDKern.Radix

open Function

/-- The subtree a walk leaves behind, when the allocator has a node. -/
def Walk.result : Walk → Option Node
  | .placed n => some n
  | .grow n => some n
  | .panic => none

theorem walk_map_result (f : Node → Node) (w : Walk) : (w.map f).result = w.result.map f := by
  cases w <;> rfl

/-- A lookup under a child answers only for keys with the child's digit. -/
theorem lookup_child_none (clev q : Nat) (s : Fin 16) (n : Node) (i : Pindex)
    (hn : Wf clev (q * 16 + s.val) n)
    (hi : above (clev + 1) i ≠ q ∨ vmRadixSlot i clev ≠ s) : vmRadixLookup n i = none := by
  cases hl : vmRadixLookup n i with
  | none => rfl
  | some m =>
    exfalso
    have habove := (wf_lookup n clev _ hn i m hl).2
    have hsucc := above_succ clev i
    rcases hi with hi | hi
    · exact hi (by omega)
    · exact hi (Fin.ext (by omega))

variable (page : Page) (n : Node) (owner : Pindex) (child : Fin 16 → Node)

/-- The node an insertion allocates: the page in one slot and what was there
    before in another. -/
theorem fork_spec (c p clev : Nat) (s : Fin 16) (hc : clev < c) (hle : clev ≤ 15)
    (hpage : above c page.pindex = p) (hs : s ≠ vmRadixSlot page.pindex clev)
    (hnull : n.isNull = false) (hn : Wf clev (above (clev + 1) page.pindex * 16 + s.val) n) :
    Wf c p (.inner (vmRadixTrimkey page.pindex (clev + 1)) 2 clev
      (update (vmRadixAddpage (fun _ => .null) page.pindex clev page) s n)) ∧
    ∀ i, vmRadixLookup (.inner (vmRadixTrimkey page.pindex (clev + 1)) 2 clev
      (update (vmRadixAddpage (fun _ => .null) page.pindex clev page) s n)) i =
      if i = page.pindex then some page else vmRadixLookup n i := by
  have hown : clev < 15 → (vmRadixTrimkey page.pindex (clev + 1)).toNat
      = above (clev + 1) page.pindex * 16 ^ (clev + 1) :=
    fun hlt => toNat_trimkey _ _ (by rw [vmRadixLimit]; omega)
  have htop : clev = 15 → above (clev + 1) page.pindex = 0 := by
    intro h
    rw [h, above_limit]
  have hleaf : Wf clev (above (clev + 1) page.pindex * 16 + (vmRadixSlot page.pindex clev).val)
      (.leaf page) := by
    simp only [Wf]
    exact above_succ clev page.pindex
  constructor
  · simp only [Wf]
    refine ⟨hc, hle, le_refl _, ?_, above (clev + 1) page.pindex, ?_, hown, htop, ?_⟩
    · -- One page and one subtree, in different slots.
      have h1 := liveChildren_update (fun _ => Node.null) (vmRadixSlot page.pindex clev)
        (.leaf page)
      have h2 := liveChildren_update
        (vmRadixAddpage (fun _ => .null) page.pindex clev page) s n
      rw [vmRadixAddpage, update_of_ne hs, hnull] at h2
      rw [liveChildren_const] at h1
      simp only [Node.isNull, if_true, Bool.false_eq_true, if_false] at h1 h2
      rw [vmRadixAddpage]
      omega
    · rw [← hpage, ← above_add]
      congr 1
      omega
    · exact wf_update clev _ _ s n (wf_update clev _ _ _ _ (fun _ => trivial) hleaf) hn
  intro i
  rw [lookup_update]
  cases hbarr : vmRadixKeybarr (vmRadixTrimkey page.pindex (clev + 1)) clev i with
  | true =>
    -- The barrier turns the key away, so it is neither page.
    have hout : above (clev + 1) i ≠ above (clev + 1) page.pindex := by
      intro h
      rw [(keybarr_eq_false_iff _ clev _ i hle hown htop).mpr h] at hbarr
      exact absurd hbarr (by decide)
    have hne : i ≠ page.pindex := fun h => hout (by rw [h])
    rw [if_pos rfl, if_neg hne, lookup_child_none clev _ s n i hn (Or.inl hout)]
  | false =>
    rw [if_neg (by decide)]
    by_cases hslot : vmRadixSlot i clev = s
    · have hne : i ≠ page.pindex := fun h => hs (by rw [← hslot, h])
      rw [if_pos hslot, if_neg hne]
    rw [if_neg hslot, lookup_child_none clev _ s n i hn (Or.inr hslot), vmRadixAddpage]
    by_cases hpg : vmRadixSlot i clev = vmRadixSlot page.pindex clev
    · rw [hpg, update_self]
      simp only [vmRadixLookup, eq_comm]
    have hne : i ≠ page.pindex := fun h => hpg (by rw [h])
    rw [update_of_ne hpg, if_neg hne]
    rfl

/-- A change of one index under one child is the same change under the node,
    when the node's barrier lets the index through. -/
theorem lookup_update_at (count count' clev : Nat) (child : Fin 16 → Node) (n : Node)
    (index : Pindex) (v : Option Page) (hbarr : vmRadixKeybarr owner clev index = false)
    (hn : ∀ i, vmRadixLookup n i = if i = index then v
      else vmRadixLookup (child (vmRadixSlot index clev)) i) :
    ∀ i, vmRadixLookup (.inner owner count' clev
        (update child (vmRadixSlot index clev) n)) i =
      if i = index then v else vmRadixLookup (.inner owner count clev child) i := by
  intro i
  rw [lookup_update, vmRadixLookup]
  cases hbi : vmRadixKeybarr owner clev i with
  | true =>
    have hne : i ≠ index := by
      intro h
      rw [h, hbarr] at hbi
      exact absurd hbi (by decide)
    rw [if_pos rfl, if_neg hne, if_pos rfl]
  | false =>
    simp only [Bool.false_eq_true, if_false]
    by_cases hslot : vmRadixSlot i clev = vmRadixSlot index clev
    · rw [if_pos hslot, hn, hslot]
    · have hne : i ≠ index := fun h => hslot (by rw [h])
      rw [if_neg hslot, if_neg hne]

/-- Inserting an absent page under a link whose prefix it has. -/
theorem insertWalk_spec : ∀ (c p : Nat), Wf c p n →
    above c page.pindex = p → vmRadixLookup n page.pindex = none →
    ∃ n', (insertWalk page n).result = some n' ∧ n'.isNull = false ∧ Wf c p n' ∧
      ∀ i, vmRadixLookup n' i = if i = page.pindex then some page else vmRadixLookup n i := by
  induction n with
  | null =>
    intro c p _ hpage _
    refine ⟨.leaf page, rfl, rfl, hpage, fun i => ?_⟩
    simp only [vmRadixLookup, eq_comm]
  | leaf m =>
    intro c p hwf hpage habs
    simp only [Wf] at hwf
    have hne : m.pindex ≠ page.pindex := by
      intro h
      simp only [vmRadixLookup, h, if_true, reduceCtorEq] at habs
    rcases keydiff_spec m.pindex page.pindex hne with ⟨hle, hup, hdiff⟩
    have hlt := keydiff_lt m.pindex page.pindex hne c (by rw [hwf, hpage])
    have hm : Wf (vmRadixKeydiff m.pindex page.pindex)
        (above (vmRadixKeydiff m.pindex page.pindex + 1) page.pindex * 16 +
          (vmRadixSlot m.pindex (vmRadixKeydiff m.pindex page.pindex)).val) (.leaf m) := by
      simp only [Wf]
      rw [← hup]
      exact above_succ _ m.pindex
    rcases fork_spec page (.leaf m) c p _ _ hlt hle hpage hdiff rfl hm with ⟨hwf', hlook⟩
    refine ⟨_, ?_, rfl, hwf', hlook⟩
    simp only [insertWalk, if_neg hne, Walk.result]
    rfl
  | inner owner count clev child ih =>
    intro c p hwf hpage habs
    simp only [Wf] at hwf
    rcases hwf with ⟨hlt, hle, htwo, hlive, q, hq, hown, htop, hchild⟩
    cases hbarr : vmRadixKeybarr owner clev page.pindex with
    | true =>
      -- The barrier: only a level below the top has one.
      have hlt15 : clev < 15 := by
        by_contra hc
        rw [vmRadixKeybarr, vmRadixLimit, if_neg hc] at hbarr
        exact absurd hbarr (by decide)
      have hownAbove : above (clev + 1) owner = q := by
        rw [above, hown hlt15]
        exact Nat.mul_div_cancel _ (Nat.pow_pos (by omega))
      have hsep : above (clev + 1) owner ≠ above (clev + 1) page.pindex := by
        rw [hownAbove]
        intro h
        rw [(keybarr_eq_false_iff owner clev q _ hle hown htop).mpr h.symm] at hbarr
        exact absurd hbarr (by decide)
      have hne : owner ≠ page.pindex := fun h => hsep (by rw [h])
      have hownC : above c owner = p := by
        rw [show c = clev + 1 + (c - (clev + 1)) by omega, above_add, hownAbove, hq]
      rcases keydiff_spec owner page.pindex hne with ⟨hle', hup, hdiff⟩
      have hlt' := keydiff_lt owner page.pindex hne c (by rw [hownC, hpage])
      have hge := le_keydiff owner page.pindex (clev + 1) hsep
      -- The old node keeps its own prefix, read one digit at a time.
      have hsub : Wf (vmRadixKeydiff owner page.pindex)
          (above (vmRadixKeydiff owner page.pindex + 1) page.pindex * 16 +
            (vmRadixSlot owner (vmRadixKeydiff owner page.pindex)).val)
          (.inner owner count clev child) := by
        simp only [Wf]
        refine ⟨by omega, hle, htwo, hlive, q, ?_, hown, htop, hchild⟩
        rw [← hup, ← above_succ, ← hownAbove, ← above_add]
        congr 1
        omega
      rcases fork_spec page _ c p _ _ hlt' hle' hpage hdiff rfl hsub with ⟨hwf', hlook⟩
      refine ⟨_, ?_, rfl, hwf', hlook⟩
      simp only [insertWalk, hbarr, if_true, Walk.result]
    | false =>
      have habove := (keybarr_eq_false_iff owner clev q _ hle hown htop).mp hbarr
      have hdig : above clev page.pindex = q * 16 + (vmRadixSlot page.pindex clev).val := by
        rw [above_succ, habove]
      simp only [vmRadixLookup, hbarr, Bool.false_eq_true, if_false] at habs
      by_cases hnull : (child (vmRadixSlot page.pindex clev)).isNull = true
      · -- An empty slot: the page goes straight in.
        have hchildNull : child (vmRadixSlot page.pindex clev) = .null := by
          cases hcs : child (vmRadixSlot page.pindex clev) <;>
            simp only [hcs, Node.isNull, Bool.false_eq_true] at hnull ⊢
        refine ⟨.inner owner (count + 1) clev
          (vmRadixAddpage child page.pindex clev page), ?_, rfl, ?_, ?_⟩
        · simp only [insertWalk, hbarr, Bool.false_eq_true, if_false, if_pos hnull, Walk.result]
        · simp only [Wf]
          refine ⟨hlt, hle, by omega, ?_, q, hq, hown, htop, wf_update clev q child _ _ hchild hdig⟩
          have hupd := liveChildren_update child (vmRadixSlot page.pindex clev) (.leaf page)
          rw [if_pos hnull] at hupd
          simp only [Node.isNull, Bool.false_eq_true, if_false] at hupd
          rw [vmRadixAddpage]
          omega
        refine lookup_update_at owner count _ clev child _ page.pindex _ hbarr (fun i => ?_)
        rw [hchildNull]
        simp only [vmRadixLookup, eq_comm]
      rcases ih _ clev _ (hchild _) hdig habs with ⟨n', hres, hn'null, hn'wf, hn'look⟩
      refine ⟨.inner owner count clev
        (update child (vmRadixSlot page.pindex clev) n'), ?_, rfl, ?_, ?_⟩
      · simp only [insertWalk, hbarr, Bool.false_eq_true, if_false, if_neg hnull,
          walk_map_result, hres, Option.map_some]
      · simp only [Wf]
        refine ⟨hlt, hle, htwo, ?_, q, hq, hown, htop, wf_update clev q child _ _ hchild hn'wf⟩
        have hupd := liveChildren_update child (vmRadixSlot page.pindex clev) n'
        rw [if_neg hnull, if_neg (by rw [hn'null]; decide)] at hupd
        omega
      · exact lookup_update_at owner count _ clev child _ page.pindex _ hbarr hn'look

/-- A child array with two live links, one of them about to go, has exactly
    one other. -/
theorem firstChild_of_two (s : Fin 16) (hs : (child s).isNull = false)
    (hlive : liveChildren child = 2) : ∃ j, j ≠ s ∧ (child j).isNull = false ∧
      firstChild (update child s .null) = some j ∧ ∀ k, k ≠ s → k ≠ j → child k = .null := by
  have hupd := liveChildren_update child s .null
  rw [hs, hlive] at hupd
  simp only [Node.isNull, if_true, Bool.false_eq_true, if_false] at hupd
  have hone : liveChildren (update child s .null) = 1 := by omega
  rw [liveChildren, Finset.card_eq_one] at hone
  rcases hone with ⟨j, hj⟩
  have hmem : ∀ k, (update child s .null k).isNull = false ↔ k = j := by
    intro k
    have hk : k ∈ Finset.univ.filter
        (fun s' => (update child s .null s').isNull = false) ↔ k = j := by
      rw [hj, Finset.mem_singleton]
    simpa only [Finset.mem_filter, Finset.mem_univ, true_and] using hk
  have hjs : j ≠ s := by
    intro h
    have := (hmem j).mpr rfl
    rw [h, update_self] at this
    exact absurd this (by decide)
  refine ⟨j, hjs, ?_, ?_, ?_⟩
  · have := (hmem j).mpr rfl
    rwa [update_of_ne hjs] at this
  · rw [firstChild]
    cases hfind : (List.finRange 16).find?
        (fun i => !(update child s .null i).isNull) with
    | none =>
      rw [List.find?_eq_none] at hfind
      exact absurd (hfind j (List.mem_finRange j)) (by rw [(hmem j).mpr rfl]; decide)
    | some k =>
      have hk := List.find?_some hfind
      rw [(hmem k).mp (by simpa using hk)]
  intro k hks hkj
  cases hk : child k with
  | null => rfl
  | leaf m | inner o ct cl ch =>
    exact absurd ((hmem k).mp (by rw [update_of_ne hks, hk]; rfl)) hkj

/-- A node's lookup, once the barrier has been passed. -/
theorem lookup_inner_some (count clev : Nat) (child : Fin 16 → Node) (i : Pindex) (m : Page)
    (h : vmRadixLookup (.inner owner count clev child) i = some m) :
    vmRadixKeybarr owner clev i = false ∧ vmRadixLookup (child (vmRadixSlot i clev)) i = some m := by
  simp only [vmRadixLookup] at h
  cases hb : vmRadixKeybarr owner clev i with
  | true => rw [hb, if_pos rfl] at h; simp only [reduceCtorEq] at h
  | false => rw [hb, if_neg (by decide)] at h; exact ⟨rfl, h⟩

/-- Removing the last page but one of a node hands the other child to the
    link above. -/
theorem collapse_spec (c p clev q : Nat) (owner : Pindex) (count : Nat) (child : Fin 16 → Node)
    (index : Pindex) (j : Fin 16) (m : Page) (hlt : clev < c) (hle : clev ≤ 15)
    (hq : q / 16 ^ (c - (clev + 1)) = p)
    (hown : clev < 15 → owner.toNat = q * 16 ^ (clev + 1)) (htop : clev = 15 → q = 0)
    (hchild : ∀ s : Fin 16, Wf clev (q * 16 + s.val) (child s))
    (hleaf : child (vmRadixSlot index clev) = .leaf m) (hm : m.pindex = index)
    (hj : j ≠ vmRadixSlot index clev)
    (hothers : ∀ k, k ≠ vmRadixSlot index clev → k ≠ j → child k = .null) :
    Wf c p (child j) ∧ ∀ i, vmRadixLookup (child j) i =
      if i = index then none else vmRadixLookup (.inner owner count clev child) i := by
  refine ⟨wf_lift c p clev q j (child j) j.isLt hlt hq (hchild j), fun i => ?_⟩
  by_cases hi : i = index
  · rw [if_pos hi, hi]
    exact lookup_child_none clev q j (child j) index (hchild j) (Or.inr hj.symm)
  rw [if_neg hi, vmRadixLookup]
  cases hb : vmRadixKeybarr owner clev i with
  | true =>
    rw [if_pos rfl]
    refine lookup_child_none clev q j (child j) i (hchild j) (Or.inl fun h => ?_)
    rw [(keybarr_eq_false_iff owner clev q i hle hown htop).mpr h] at hb
    exact absurd hb (by decide)
  | false =>
    rw [if_neg (by decide)]
    by_cases hsj : vmRadixSlot i clev = j
    · rw [hsj]
    rw [lookup_child_none clev q j (child j) i (hchild j) (Or.inr hsj)]
    by_cases hsi : vmRadixSlot i clev = vmRadixSlot index clev
    · rw [hsi, hleaf, vmRadixLookup, if_neg (fun h => hi (by rw [← h, hm]))]
    · rw [hothers _ hsi hsj, vmRadixLookup]

/-- Removing a present index. Under a node something always remains. -/
theorem removeWalk_spec (index : Pindex) (n : Node) : ∀ (c p : Nat), Wf c p n →
    ∀ m, vmRadixLookup n index = some m → ∃ n', removeWalk index n = some n' ∧ Wf c p n' ∧
      (n'.isNull = true → ∃ m', n = .leaf m') ∧
      ∀ i, vmRadixLookup n' i = if i = index then none else vmRadixLookup n i := by
  induction n with
  | null => intro c p _ m h; simp only [vmRadixLookup, reduceCtorEq] at h
  | leaf m' =>
    intro c p hwf m h
    simp only [vmRadixLookup, Option.ite_none_right_eq_some, Option.some.injEq] at h
    refine ⟨.null, ?_, trivial, fun _ => ⟨m', rfl⟩, fun i => ?_⟩
    · simp only [removeWalk, h.1, if_true]
    simp only [vmRadixLookup, h.1]
    by_cases hi : i = index
    · rw [if_pos hi]
    · rw [if_neg hi, if_neg (fun hc => hi hc.symm)]
  | inner owner count clev child ih =>
    intro c p hwf m h
    simp only [Wf] at hwf
    rcases hwf with ⟨hlt, hle, htwo, hlive, q, hq, hown, htop, hchild⟩
    rcases lookup_inner_some owner count clev child index m h with ⟨hbarr, hdown⟩
    cases hcs : child (vmRadixSlot index clev) with
    | null => rw [hcs, vmRadixLookup] at hdown; simp only [reduceCtorEq] at hdown
    | leaf m' =>
      rw [hcs] at hdown
      simp only [vmRadixLookup, Option.ite_none_right_eq_some, Option.some.injEq] at hdown
      have hnn : (child (vmRadixSlot index clev)).isNull = false := by rw [hcs]; rfl
      have hupd := liveChildren_update child (vmRadixSlot index clev) .null
      rw [hnn] at hupd
      simp only [Node.isNull, if_true, Bool.false_eq_true, if_false] at hupd
      by_cases hmany : count - 1 > 1
      · refine ⟨.inner owner (count - 1) clev
          (update child (vmRadixSlot index clev) .null), ?_, ?_, ?_, ?_⟩
        · simp only [removeWalk, hcs, hdown.1, if_true, if_pos hmany]
        · simp only [Wf]
          exact ⟨hlt, hle, by omega, by omega, q, hq, hown, htop,
            wf_update clev q child _ _ hchild trivial⟩
        · intro hnull
          simp only [Node.isNull, Bool.false_eq_true] at hnull
        refine lookup_update_at owner count _ clev child _ index _ hbarr (fun i => ?_)
        rw [hcs, vmRadixLookup, vmRadixLookup, hdown.1]
        by_cases hi : i = index
        · rw [if_pos hi]
        · rw [if_neg hi, if_neg (fun hc => hi hc.symm)]
      -- The node held two: it goes, and the other child moves up.
      rcases firstChild_of_two child (vmRadixSlot index clev) hnn (by omega) with
        ⟨j, hjs, hjn, hfirst, hothers⟩
      rcases collapse_spec c p clev q owner count child index j m' hlt hle hq hown htop
        hchild hcs hdown.1 hjs hothers with ⟨hwf', hlook⟩
      refine ⟨child j, ?_, hwf', ?_, hlook⟩
      · simp only [removeWalk, hcs, hdown.1, if_true, if_neg hmany, hfirst, Option.map_some]
        rw [update_of_ne hjs]
      intro hnull
      rw [hjn] at hnull
      exact absurd hnull (by decide)
    | inner o ct cl ch =>
      rcases ih (vmRadixSlot index clev) clev _ (hchild _) m hdown with
        ⟨n', hrem, hn'wf, hn'null, hn'look⟩
      have hnn : (child (vmRadixSlot index clev)).isNull = false := by rw [hcs]; rfl
      have hkeep : n'.isNull = false := by
        cases hb : n'.isNull with
        | false => rfl
        | true =>
          rcases hn'null hb with ⟨m', hm'⟩
          rw [hcs] at hm'
          cases hm'
      refine ⟨.inner owner count clev
        (update child (vmRadixSlot index clev) n'), ?_, ?_, ?_, ?_⟩
      · rw [hcs] at hrem
        rw [removeWalk]
        simp only [hcs, hrem, Option.map_some]
      · simp only [Wf]
        refine ⟨hlt, hle, htwo, ?_, q, hq, hown, htop, wf_update clev q child _ _ hchild hn'wf⟩
        have hupd := liveChildren_update child (vmRadixSlot index clev) n'
        rw [hnn, hkeep] at hupd
        omega
      · intro hnull
        simp only [Node.isNull, Bool.false_eq_true] at hnull
      · exact lookup_update_at owner count _ clev child _ index _ hbarr hn'look

/-- Replacing a present page hands the old one back. -/
theorem replaceWalk_spec (newpage : Page) (n : Node) : ∀ (c p : Nat), Wf c p n →
    ∀ m, vmRadixLookup n newpage.pindex = some m →
    ∃ n', replaceWalk newpage n = some (m, n') ∧ Wf c p n' ∧ n'.isNull = false ∧
      ∀ i, vmRadixLookup n' i = if i = newpage.pindex then some newpage
        else vmRadixLookup n i := by
  induction n with
  | null => intro c p _ m h; simp only [vmRadixLookup, reduceCtorEq] at h
  | leaf m' =>
    intro c p hwf m h
    simp only [vmRadixLookup, Option.ite_none_right_eq_some, Option.some.injEq] at h
    rcases h with ⟨hidx, rfl⟩
    simp only [Wf, hidx] at hwf
    refine ⟨.leaf newpage, ?_, hwf, rfl, fun i => ?_⟩
    · simp only [replaceWalk, hidx, if_true]
    simp only [vmRadixLookup, hidx]
    by_cases hi : i = newpage.pindex
    · rw [if_pos hi, if_pos hi.symm]
    · rw [if_neg hi, if_neg (fun hc => hi hc.symm), if_neg (fun hc => hi hc.symm)]
  | inner owner count clev child ih =>
    intro c p hwf m h
    simp only [Wf] at hwf
    rcases hwf with ⟨hlt, hle, htwo, hlive, q, hq, hown, htop, hchild⟩
    rcases lookup_inner_some owner count clev child newpage.pindex m h with ⟨hbarr, hdown⟩
    rcases ih (vmRadixSlot newpage.pindex clev) clev _ (hchild _) m hdown with
      ⟨n', hrep, hn'wf, hn'null, hn'look⟩
    have hnn : (child (vmRadixSlot newpage.pindex clev)).isNull = false := by
      cases hcs : child (vmRadixSlot newpage.pindex clev) with
      | null => rw [hcs, vmRadixLookup] at hdown; simp only [reduceCtorEq] at hdown
      | leaf m' | inner o ct cl ch => rfl
    refine ⟨.inner owner count clev
      (update child (vmRadixSlot newpage.pindex clev) n'), ?_, ?_, rfl,
      lookup_update_at owner count _ clev child _ newpage.pindex _ hbarr hn'look⟩
    · cases hcs : child (vmRadixSlot newpage.pindex clev) with
      | null => rw [hcs, vmRadixLookup] at hdown; simp only [reduceCtorEq] at hdown
      | leaf m' =>
        rw [hcs] at hrep hdown
        simp only [vmRadixLookup, Option.ite_none_right_eq_some, Option.some.injEq] at hdown
        rcases hdown with ⟨hidx, rfl⟩
        simp only [replaceWalk, hidx, if_true, Option.some.injEq, Prod.mk.injEq, true_and] at hrep
        simp only [replaceWalk, hcs, hidx, if_true, hrep]
      | inner o ct cl ch =>
        rw [hcs] at hdown
        have hchildBarr := (lookup_inner_some o ct cl ch newpage.pindex m hdown).1
        rw [hcs] at hrep
        rw [replaceWalk]
        simp only [hcs, hchildBarr, Bool.false_eq_true, if_false, hrep, Option.map_some]
    simp only [Wf]
    refine ⟨hlt, hle, htwo, ?_, q, hq, hown, htop, wf_update clev q child _ _ hchild hn'wf⟩
    have hupd := liveChildren_update child (vmRadixSlot newpage.pindex clev) n'
    rw [hnn, hn'null] at hupd
    omega

theorem liveChildren_eq_countP :
    liveChildren child = (List.finRange 16).countP (fun s => !(child s).isNull) := by
  rw [liveChildren, List.countP_eq_length_filter,
    ← List.toFinset_card_of_nodup ((List.nodup_finRange 16).filter _)]
  congr 1
  ext s
  simp

/-- The slot scan stops on time when the count is what the slots hold. -/
theorem reclaim_fold (freed : Fin 16 → Option Unit) (hfreed : ∀ s, freed s = some ()) :
    ∀ (l : List (Fin 16)) (k : Nat), k = l.countP (fun s => !(child s).isNull) →
      l.foldl (fun acc slot => acc.bind (fun count =>
        if count = 0 then some count
        else if (child slot).isNull then some count
        else (freed slot).map (fun _ => count - 1))) (some k) = some 0 := by
  intro l
  induction l with
  | nil => intro k hk; simp only [List.foldl_nil, hk, List.countP_nil]
  | cons s l ih =>
    intro k hk
    rw [List.countP_cons] at hk
    simp only [List.foldl_cons, Option.bind_some]
    by_cases hz : k = 0
    · rw [if_pos hz]
      exact ih k (by omega)
    rw [if_neg hz]
    cases hnull : (child s).isNull with
    | true =>
      rw [hnull] at hk
      rw [if_pos rfl]
      exact ih k (by simpa using hk)
    | false =>
      rw [hnull] at hk
      rw [if_neg (by decide), hfreed s]
      exact ih (k - 1) (by simp at hk; omega)

/-- Freeing every node never runs past a child array. -/
theorem reclaimInt_spec : ∀ (c p : Nat), Wf c p n → vmRadixReclaimInt n = some () := by
  induction n with
  | null | leaf m => intro c p _; rfl
  | inner owner count clev child ih =>
    intro c p hwf
    simp only [Wf] at hwf
    rcases hwf with ⟨-, -, -, hlive, q, -, -, -, hchild⟩
    simp only [vmRadixReclaimInt]
    rw [reclaim_fold child (fun s => vmRadixReclaimInt (child s))
      (fun s => ih s clev _ (hchild s)) _ count (by rw [hlive, liveChildren_eq_countP])]
    rfl

/-- The operations on a page trie. -/
inductive MapOp where
  | insert (page : Page)
  | remove (index : Pindex)
  | replace (page : Page)
  | reclaim

/-- What an operation does to a partial function from indices to pages, where
    its caller may call it: an insertion needs the index free, a removal or a
    replacement needs it taken. -/
def specStep (f : Pindex → Option Page) : MapOp → Option (Pindex → Option Page)
  | .insert page =>
    if f page.pindex = none then some (update f page.pindex (some page)) else none
  | .remove index => if f index = none then none else some (update f index none)
  | .replace page =>
    if f page.pindex = none then none else some (update f page.pindex (some page))
  | .reclaim => some (fun _ => none)

/-- What an operation does to the trie, node allocation succeeding. `none` is
    a panic. -/
def execStep (root : Node) : MapOp → Option Node
  | .insert page => (vmRadixInsert true root page).map (fun r => r.2)
  | .remove index => removeWalk index root
  | .replace page => (replaceWalk page root).map (fun r => r.2)
  | .reclaim => vmRadixReclaimAllnodes root

/-- The trie is in shape and holds exactly the pages of the map. -/
def Represents (root : Node) (f : Pindex → Option Page) : Prop :=
  Wf 16 0 root ∧ ∀ i, vmRadixLookup root i = f i

theorem update_eq_ite (f : Pindex → Option Page) (index : Pindex) (v : Option Page) :
    update f index v = fun i => if i = index then v else f i := by
  funext i
  by_cases h : i = index
  · rw [h, update_self, if_pos rfl]
  · rw [update_of_ne h, if_neg h]

theorem insert_eq_result (root : Node) (page : Page) :
    (vmRadixInsert true root page).map (fun r => r.2) = (insertWalk page root).result := by
  rw [vmRadixInsert]
  cases insertWalk page root <;> rfl

/-- Each admitted operation runs on the trie and keeps it in step. -/
theorem execStep_represents (root : Node) (f : Pindex → Option Page) (op : MapOp)
    (f' : Pindex → Option Page) (h : Represents root f) (hspec : specStep f op = some f') :
    ∃ root', execStep root op = some root' ∧ Represents root' f' := by
  rcases h with ⟨hwf, hlook⟩
  cases op with
  | insert page =>
    simp only [specStep, Option.ite_none_right_eq_some, Option.some.injEq] at hspec
    rcases hspec with ⟨habs, hf'⟩
    rcases insertWalk_spec page root 16 0 hwf (above_limit _) (by rw [hlook, habs]) with
      ⟨n', hres, -, hwf', hlook'⟩
    refine ⟨n', by rw [execStep, insert_eq_result, hres], hwf', fun i => ?_⟩
    rw [hlook', hlook, ← hf', update_eq_ite]
  | remove index =>
    simp only [specStep, Option.ite_none_left_eq_some, Option.some.injEq] at hspec
    rcases hspec with ⟨hpres, hf'⟩
    rcases Option.ne_none_iff_exists'.mp hpres with ⟨m, hm⟩
    rcases removeWalk_spec index root 16 0 hwf m (by rw [hlook, hm]) with
      ⟨n', hrem, hwf', -, hlook'⟩
    refine ⟨n', hrem, hwf', fun i => ?_⟩
    rw [hlook', hlook, ← hf', update_eq_ite]
  | replace page =>
    simp only [specStep, Option.ite_none_left_eq_some, Option.some.injEq] at hspec
    rcases hspec with ⟨hpres, hf'⟩
    rcases Option.ne_none_iff_exists'.mp hpres with ⟨m, hm⟩
    rcases replaceWalk_spec page root 16 0 hwf m (by rw [hlook, hm]) with
      ⟨n', hrep, hwf', -, hlook'⟩
    refine ⟨n', by rw [execStep, hrep]; rfl, hwf', fun i => ?_⟩
    rw [hlook', hlook, ← hf', update_eq_ite]
  | reclaim =>
    simp only [specStep, Option.some.injEq] at hspec
    refine ⟨.null, ?_, trivial, fun i => by rw [← hspec]; rfl⟩
    rw [execStep, vmRadixReclaimAllnodes, reclaimInt_spec root 16 0 hwf]
    rfl

/-- Any admitted sequence of operations runs on the empty trie without a
    panic, and afterwards a lookup of any 64-bit index answers as the map,
    every interior node keeping its promises. -/
theorem trie_refines_map (ops : List MapOp) (f : Pindex → Option Page)
    (h : Lib.runOps specStep (fun _ => none) ops = some f) :
    ∃ root, Lib.runOps execStep .null ops = some root ∧ (∀ i, vmRadixLookup root i = f i) ∧
      WellFormed (fun lev => lev < vmRadixLimit) root := by
  rcases Lib.runOps_simulation execStep specStep Represents execStep_represents ops .null _ f
    ⟨trivial, fun _ => rfl⟩ h with ⟨root, hrun, hwf, hlook⟩
  exact ⟨root, hrun, hlook, wellFormed_of_wf 16 0 root hwf⟩

theorem trie_refines_map_pair : ∃ root, Lib.runOps execStep .null
        [.insert ⟨3#64, 100⟩, .insert ⟨5#64, 200⟩, .replace ⟨3#64, 300⟩, .remove 5#64]
        = some root ∧
      vmRadixLookup root 3#64 = some ⟨3#64, 300⟩ ∧ vmRadixLookup root 5#64 = none ∧
      WellFormed (fun lev => lev < vmRadixLimit) root := by
  rcases trie_refines_map
    [.insert ⟨3#64, 100⟩, .insert ⟨5#64, 200⟩, .replace ⟨3#64, 300⟩, .remove 5#64] _
    (by simp [Lib.runOps, specStep, update]; rfl) with ⟨root, hrun, hlook, hwf⟩
  exact ⟨root, hrun, by rw [hlook]; rfl, by rw [hlook]; rfl, hwf⟩

/-- The owner of a top-level node is not its descendants' index with the low
    sixty-four bits cleared: the shift that should clear them keeps the whole
    key of whichever page forced the node. -/
theorem top_level_owner_untrimmed : ¬ ∀ (ops : List MapOp) (f : Pindex → Option Page),
      Lib.runOps specStep (fun _ => none) ops = some f →
        ∃ root, Lib.runOps execStep .null ops = some root ∧
          (∀ i, vmRadixLookup root i = f i) ∧ WellFormed (fun _ => True) root := by
  intro hall
  rcases hall [.insert ⟨0#64, 0⟩, .insert ⟨0x1000000000000000#64, 1⟩] _
    (by simp [Lib.runOps, specStep, update]; rfl) with ⟨root, hrun, -, hwf⟩
  have hroot : Lib.runOps execStep .null
      [.insert ⟨0#64, 0⟩, .insert ⟨0x1000000000000000#64, 1⟩]
      = some (.inner 0x1000000000000000#64 2 15 (vmRadixAddpage (vmRadixAddpage (fun _ => .null)
          0x1000000000000000#64 15 ⟨0x1000000000000000#64, 1⟩) 0#64 15 ⟨0#64, 0⟩)) := rfl
  rw [hroot, Option.some.injEq] at hrun
  rw [← hrun] at hwf
  have hok := hwf _ _ _ _ (SubNode.refl _)
  have hpage : HasPage (.inner 0x1000000000000000#64 2 15 (vmRadixAddpage
      (vmRadixAddpage (fun _ => .null) 0x1000000000000000#64 15 ⟨0x1000000000000000#64, 1⟩)
        0#64 15 ⟨0#64, 0⟩)) ⟨0#64, 0⟩ := ⟨0, rfl⟩
  exact absurd (hok.2.2.2.2.2 trivial _ hpage) (by decide)

end FreeBSDKern.Radix
