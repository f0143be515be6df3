import FreeBSDKern.Msg.Model
import FreeBSDKern.Lib.Linked

/-!
# The Segments

Every segment is on the free list or on the chain of one message. `Pool` says so,
over lists that the links are known to visit: `cells none` are the free segments and
`cells (some h)` those of header `h`. A message gets its segments from the front of
the free list, which reverses them, and gives them back the same way.

The loops are followed along the list of segments they take, and not by the number
of bytes: a message of `ts` bytes has `segsNeeded` segments, and one round of
`msg_freehdr` takes one of them.

## Main definitions

* `Pool`: Each segment has its place.

## Theorems

* `freeSegments_spec`, `allocSegments_spec`: The two loops.
* `Pool.release`, `Pool.alloc`: What they do to the pool.
-/

namespace FreeBSDKern.Msg

open Lib Function

variable {cfg : Config}

theorem Config.ssz_pos (cfg : Config) : 0 < cfg.msgssz := by
  rcases cfg.ssz with ⟨k, -, -, hk⟩
  rw [hk]
  exact Nat.pow_pos (by decide)

theorem segsNeeded_zero (cfg : Config) : segsNeeded cfg 0 = 0 := by
  have := cfg.ssz_pos
  exact Nat.div_eq_of_lt (by omega)

theorem segsNeeded_step (cfg : Config) (n : Nat) (hn : 0 < n) :
    segsNeeded cfg n = segsNeeded cfg (n - cfg.msgssz) + 1 := by
  have hssz := cfg.ssz_pos
  rw [segsNeeded, segsNeeded]
  by_cases hle : cfg.msgssz ≤ n
  · rw [show n + cfg.msgssz - 1 = n - cfg.msgssz + cfg.msgssz - 1 + cfg.msgssz by omega,
      Nat.add_div_right _ hssz]
  · rw [show n + cfg.msgssz - 1 = n - 1 + cfg.msgssz by omega, Nat.add_div_right _ hssz,
      show n - cfg.msgssz = 0 by omega, Nat.div_eq_of_lt (by omega), Nat.div_eq_of_lt (by omega)]

theorem segsNeeded_pos (cfg : Config) (n : Nat) (hn : 0 < n) : 0 < segsNeeded cfg n := by
  rw [segsNeeded_step cfg n hn]
  exact Nat.succ_pos _

theorem segsNeeded_mono (cfg : Config) (m n : Nat) (h : m ≤ n) :
    segsNeeded cfg m ≤ segsNeeded cfg n :=
  Nat.div_le_div_right (by omega)

/-- A reference to a segment. -/
def ref (n : Nat) : Int := n

/-- The links of the segments from `p` visit the list and end. -/
def SegChain (g : Segments) (p : Int) (l : List Nat) : Prop := Linked ref g.msgmaps p l (-1)

variable {g : Segments} {p : Int} {l : List Nat} {cells : Option Nat → List Nat}
  {owner : Nat → Option Nat}

theorem SegChain.congr {g' : Segments} (h : SegChain g p l)
    (heq : ∀ a ∈ l, g'.msgmaps a = g.msgmaps a) : SegChain g' p l := Linked.congr h heq

/-- A chain that has segments begins with one in range. -/
theorem SegChain.start (h : SegChain g p l) (hl : 0 < l.length) :
    ∃ a rest, l = a :: rest ∧ p = (a : Int) ∧ SegChain g (g.msgmaps a) rest := by
  cases l with
  | nil => exact absurd hl (lt_irrefl 0)
  | cons a rest => exact ⟨a, rest, rfl, h.1, h.2⟩

theorem SegChain.end_of_nil (h : SegChain g p l) (hl : l.length = 0) : p = -1 := by
  rw [List.length_eq_zero_iff] at hl
  subst hl
  exact h

/-- The loop of `msg_freehdr` along the chain of the message. -/
theorem freeSegments_spec (l : List Nat) : ∀ (fuel : Nat) (g : Segments) (ts : Nat) (spot : Int)
    (free : List Nat), ts ≤ fuel → SegChain g spot l → SegChain g g.freeMsgmaps free →
    (l ++ free).Nodup → (∀ a ∈ l, a < cfg.msgseg) → l.length = segsNeeded cfg ts →
    ∃ g', freeSegments cfg fuel g ts spot = some (g', -1) ∧
      SegChain g' g'.freeMsgmaps (l.reverse ++ free) ∧
      g'.nfreeMsgmaps = g.nfreeMsgmaps + l.length ∧ ∀ a, a ∉ l → g'.msgmaps a = g.msgmaps a := by
  induction l with
  | nil =>
    intro fuel g ts spot free hfuel hl hfree hnodup hrange hlen
    have hts : ts = 0 := by
      by_contra hne
      have := segsNeeded_pos cfg ts (by omega)
      rw [List.length_nil] at hlen
      omega
    subst hts
    have hspot : spot = -1 := hl.end_of_nil rfl
    subst hspot
    refine ⟨g, ?_, hfree, by simp, fun a _ => rfl⟩
    cases fuel with
    | zero => rfl
    | succ fuel => rfl
  | cons a l ih =>
    intro fuel g ts spot free hfuel hl hfree hnodup hrange hlen
    have hts : 0 < ts := by
      by_contra hne
      rw [show ts = 0 by omega, segsNeeded_zero] at hlen
      cases hlen
    rcases hl with ⟨rfl, hrest⟩
    rw [List.cons_append, List.nodup_cons] at hnodup
    rw [List.mem_append, not_or] at hnodup
    have ha := hrange a List.mem_cons_self
    cases fuel with
    | zero => omega
    | succ fuel =>
      have hguard : ¬ (ref a < 0 ∨ ref a ≥ (cfg.msgseg : Int)) := by
        rw [ref]
        omega
      rw [freeSegments, if_neg (by omega), if_neg hguard]
      have hless : (if ts ≥ cfg.msgssz then ts - cfg.msgssz else 0) = ts - cfg.msgssz := by
        split
        · rfl
        · omega
      have htoNat : (ref a).toNat = a := rfl
      rw [hless, htoNat]
      -- The segment is in front of the free list, the rest of the chain as before.
      have hfree' : SegChain
          { msgmaps := update g.msgmaps a g.freeMsgmaps
            nfreeMsgmaps := g.nfreeMsgmaps + 1
            freeMsgmaps := ref a } (ref a) (a :: free) := Linked.push hfree hnodup.1.2
      have hrest' : SegChain
          { msgmaps := update g.msgmaps a g.freeMsgmaps
            nfreeMsgmaps := g.nfreeMsgmaps + 1
            freeMsgmaps := ref a } (g.msgmaps a) l := Linked.update hrest hnodup.1.1 _
      have hnd : (l ++ a :: free).Nodup := by
        rw [List.nodup_middle, List.nodup_cons, List.mem_append, not_or]
        exact hnodup
      have hlen' : l.length = segsNeeded cfg (ts - cfg.msgssz) := by
        rw [segsNeeded_step cfg ts hts, List.length_cons] at hlen
        exact Nat.succ.inj hlen
      have hssz := cfg.ssz_pos
      rcases ih fuel _ (ts - cfg.msgssz) (g.msgmaps a) (a :: free) (by omega) hrest' hfree' hnd
        (fun b hb => hrange b (List.mem_cons_of_mem a hb)) hlen' with
        ⟨g', hloop, hchain, hcount, hsame⟩
      refine ⟨g', hloop, ?_, ?_, fun b hb => ?_⟩
      · rw [List.reverse_cons, List.append_assoc]
        exact hchain
      · rw [hcount, List.length_cons]
        push_cast
        omega
      rw [List.mem_cons, not_or] at hb
      rw [hsame b hb.2]
      exact update_of_ne hb.1 _ _

/-- The loop of `msgsnd` that takes segments off the front of the free list. -/
theorem allocSegments_spec (taken : List Nat) : ∀ (g : Segments) (spot : Int)
    (l free : List Nat), SegChain g spot l → SegChain g g.freeMsgmaps (taken ++ free) →
    g.nfreeMsgmaps = ((taken ++ free).length : Int) → (l ++ (taken ++ free)).Nodup →
    (∀ a ∈ taken, a < cfg.msgseg) →
    ∃ g' spot', allocSegments cfg taken.length g spot = some (g', spot') ∧
      SegChain g' spot' (taken.reverse ++ l) ∧ SegChain g' g'.freeMsgmaps free ∧
      g'.nfreeMsgmaps = (free.length : Int) ∧ ∀ a, a ∉ taken → g'.msgmaps a = g.msgmaps a := by
  induction taken with
  | nil =>
    intro g spot l free hl hfree hcount hnodup hrange
    exact ⟨g, spot, rfl, hl, hfree, hcount, fun a _ => rfl⟩
  | cons a taken ih =>
    intro g spot l free hl hfree hcount hnodup hrange
    rcases hfree with ⟨hhead, hrest⟩
    have ha := hrange a List.mem_cons_self
    have hguard : ¬ (g.nfreeMsgmaps ≤ 0 ∨ g.freeMsgmaps ≤ -1 ∨
        g.freeMsgmaps ≥ (cfg.msgseg : Int)) := by
      rw [hcount, hhead, ref, List.cons_append, List.length_cons]
      omega
    rw [List.cons_append, List.nodup_middle, List.nodup_cons, List.mem_append, not_or] at hnodup
    rw [List.length_cons, allocSegments, if_neg hguard]
    have htoNat : g.freeMsgmaps.toNat = a := by
      rw [hhead]
      rfl
    rw [htoNat]
    have hl' : SegChain
        { msgmaps := update g.msgmaps a spot
          nfreeMsgmaps := g.nfreeMsgmaps - 1
          freeMsgmaps := g.msgmaps a } g.freeMsgmaps (a :: l) := by
      rw [hhead]
      exact Linked.push hl hnodup.1.1
    have hfree' : SegChain
        { msgmaps := update g.msgmaps a spot
          nfreeMsgmaps := g.nfreeMsgmaps - 1
          freeMsgmaps := g.msgmaps a } (g.msgmaps a) (taken ++ free) :=
      Linked.update hrest hnodup.1.2 _
    have hnd : (a :: l ++ (taken ++ free)).Nodup := by
      rw [List.cons_append, List.nodup_cons, List.mem_append, not_or]
      exact hnodup
    rcases ih _ g.freeMsgmaps (a :: l) free hl' hfree' (by
      dsimp only
      rw [hcount, List.cons_append, List.length_cons]
      push_cast
      omega) hnd (fun b hb => hrange b (List.mem_cons_of_mem a hb)) with
      ⟨g', spot', hloop, hchain, hfree'', hcount', hsame⟩
    refine ⟨g', spot', hloop, ?_, hfree'', hcount', fun b hb => ?_⟩
    · rw [List.reverse_cons, List.append_assoc]
      exact hchain
    rw [List.mem_cons, not_or] at hb
    rw [hsame b hb.2]
    exact update_of_ne hb.1 _ _

/-- Each segment is on the free list or on the chain of one header. -/
structure Pool (cfg : Config) (g : Segments) (cells : Option Nat → List Nat)
    (owner : Nat → Option Nat) : Prop where
  parts : Bucketed cells (· < cfg.msgseg) owner
  free : SegChain g g.freeMsgmaps (cells none)
  nfree : g.nfreeMsgmaps = ((cells none).length : Int)

section

variable (h : Pool cfg g cells owner)
include h

theorem Pool.range {i : Option Nat} {a : Nat} (ha : a ∈ cells i) :
    a < cfg.msgseg :=
  ((h.parts.mem i a).mp ha).1

/-- Two lists of the pool have no segment in common. -/
theorem Pool.apart {i j : Option Nat} (hij : i ≠ j) {a : Nat}
    (ha : a ∈ cells i) : a ∉ cells j := by
  intro hb
  exact hij (((h.parts.mem i a).mp ha).2.symm.trans ((h.parts.mem j a).mp hb).2)

/-- A message gives its segments back. -/
theorem Pool.release (m ts : Nat) (spot : Int)
    (hchain : SegChain g spot (cells (some m))) (hlen : (cells (some m)).length = segsNeeded cfg ts)
    : ∃ g' cells' owner', freeSegments cfg ts g ts spot = some (g', -1) ∧
      Pool cfg g' cells' owner' ∧ cells' (some m) = [] ∧
      (∀ k, k ≠ none → k ≠ some m → cells' k = cells k) ∧
      ∀ a, a ∉ cells (some m) → g'.msgmaps a = g.msgmaps a := by
  have hne : (some m : Option Nat) ≠ none := Option.some_ne_none m
  have hnodup : (cells (some m) ++ cells none).Nodup := by
    rw [List.nodup_append]
    refine ⟨h.parts.nodup _, h.parts.nodup _, fun a ha b hb hab => ?_⟩
    subst hab
    exact h.apart hne ha hb
  rcases freeSegments_spec (cells (some m)) ts g ts spot (cells none) le_rfl hchain h.free
    hnodup (fun a ha => h.range ha) hlen with ⟨g', hloop, hfree, hcount, hsame⟩
  have hdone : update (update cells (some m) []) none
      ((cells (some m)).reverse ++ cells none) (some m) = [] := by
    rw [update_of_ne hne, update_self]
  refine ⟨g', update (update cells (some m) []) none
    ((cells (some m)).reverse ++ cells none), _, hloop, ⟨h.parts.transfer hne
      (cells (some m)) [] ?_ ?_ ?_ ?_, ?_, ?_⟩, hdone, ?_, hsame⟩
  · rw [List.append_nil]
  · rw [hdone]
  · rw [update_self]
    exact (List.reverse_perm _).append_right _
  · intro k hk hk'
    rw [update_of_ne hk', update_of_ne hk]
  · rw [update_self]
    exact hfree
  · rw [update_self, hcount, h.nfree, List.length_append, List.length_reverse]
    push_cast
    omega
  · intro k hk hk'
    rw [update_of_ne hk, update_of_ne hk']

/-- A message without segments gets `n` of them. -/
theorem Pool.alloc (m n : Nat) (hnone : cells (some m) = [])
    (hn : (n : Int) ≤ g.nfreeMsgmaps) :
    ∃ g' spot cells' owner', allocSegments cfg n g (-1) = some (g', spot) ∧
      Pool cfg g' cells' owner' ∧ SegChain g' spot (cells' (some m)) ∧
      (cells' (some m)).length = n ∧ (∀ k, k ≠ none → k ≠ some m → cells' k = cells k) ∧
      ∀ a, a ∉ cells none → g'.msgmaps a = g.msgmaps a := by
  have hne : (none : Option Nat) ≠ some m := (Option.some_ne_none m).symm
  have hle : n ≤ (cells none).length := by
    have := h.nfree
    omega
  have hsplit : (cells none).take n ++ (cells none).drop n = cells none := List.take_append_drop n _
  have hlen : ((cells none).take n).length = n := by
    rw [List.length_take]
    omega
  rcases @allocSegments_spec cfg ((cells none).take n) g (-1) [] ((cells none).drop n) rfl
    (by rw [hsplit]; exact h.free) (by rw [hsplit]; exact h.nfree)
    (by rw [hsplit]; exact h.parts.nodup none)
    (fun a ha => h.range (List.mem_of_mem_take ha)) with
    ⟨g', spot, hloop, hchain, hfree, hcount, hsame⟩
  rw [hlen] at hloop
  rw [List.append_nil] at hchain
  have hget : update (update cells none ((cells none).drop n)) (some m)
      ((cells none).take n).reverse none = (cells none).drop n := by
    rw [update_of_ne hne, update_self]
  refine ⟨g', spot, update (update cells none ((cells none).drop n)) (some m)
      ((cells none).take n).reverse, _, hloop, ⟨h.parts.transfer hne
        ((cells none).take n) ((cells none).drop n) ?_ ?_ ?_ ?_, ?_, ?_⟩,
    ?_, ?_, ?_, fun a ha => hsame a (fun hm => ha (List.mem_of_mem_take hm))⟩
  · rw [hsplit]
  · rw [hget]
  · rw [update_self, hnone, List.append_nil]
    exact List.reverse_perm _
  · intro k hk hk'
    rw [update_of_ne hk', update_of_ne hk]
  · rw [hget]
    exact hfree
  · rw [hget]
    exact hcount
  · rw [update_self]
    exact hchain
  · rw [update_self, List.length_reverse]
    exact hlen
  · intro k hk hk'
    rw [update_of_ne hk', update_of_ne hk]

end

end FreeBSDKern.Msg
