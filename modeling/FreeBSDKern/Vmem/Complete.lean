import FreeBSDKern.Vmem.Contents
import FreeBSDKern.Vmem.Place

/-!
# What an Allocation Finds

`vmem_xalloc` begins its search at a size class. Since the classes are in the order of
the sizes, every free tag that is large enough is on the list it begins with or behind
it, across the place where the classes stop being single sizes and up to the last class.
First fit looks at the first tag of each list only, but a search that fails is repeated
as a best fit. So an allocation fails only if `vmem_fit` accepts no free tag.

An allocation that succeeds takes what `vmem_fit` gave it. Where the words of that lead
out of the address space, the address may lie before the tag, and then the pieces of the
tag overlap.

## Main definitions

* `Accepts`: `vmem_fit` accepts a tag.
* `FirstAccepted`: The tag an allocation is made from.
* `LandsInTag`: The address is not before the tag.
* `AsAsked`: What an allocation should do.

## Theorems

* `size2order_mono`, `size2order_lt`: The size classes.
* `mem_tried_of_free`: Every free tag that is large enough is looked at.
* `xalloc_complete`: An allocation does what it should exactly if the first tag accepted
  gives an address that is not before it.
-/

namespace FreeBSDKern.Vmem

open Lib

section classes

variable {a t : Nat} {l : Limits}

theorem size2order_mono {b : Nat} (h : a ≤ b) : size2order a ≤ size2order b := by
  have hopt : optvalue = 32 := rfl
  have horder : optorder = 5 := rfl
  unfold size2order
  rw [hopt, horder]
  split
  case isTrue =>
    split
    case isTrue => omega
    case isFalse hb =>
      -- The first class with more than one size is the one of the last single size.
      have hlog : 5 ≤ Nat.log2 b := (Nat.le_log2 (by omega)).mpr (by omega)
      omega
  case isFalse ha =>
  rw [if_neg (by omega)]
  have hlog : Nat.log2 a ≤ Nat.log2 b :=
    (Nat.le_log2 (by omega)).mpr (le_trans (Nat.log2_self_le (by omega)) h)
  omega

theorem size2order_lt (h : a < 2 ^ 64) : size2order a < maxorder := by
  have hopt : optvalue = 32 := rfl
  have horder : optorder = 5 := rfl
  have hmax : maxorder = 90 := rfl
  unfold size2order
  rw [hopt, horder, hmax]
  split
  case isTrue => omega
  case isFalse ha =>
    have hlog : Nat.log2 a < 64 := (Nat.log2_lt (by omega)).mpr h
    omega

theorem mem_tried_of_free {vm : Arena} (h : Listed vm ∅) {strat : Strat} (ht : t ∈ vm.seglist)
    (hfree : (vm.tag t).type = .free) (hsize : l.size ≤ (vm.tag t).size)
    (hword : (vm.tag t).size < 2 ^ 64) : t ∈ tried vm l strat := by
  have hmono : l.size >>> vm.quantumShift ≤ (vm.tag t).size >>> vm.quantumShift := by
    rw [Nat.shiftRight_eq_div_pow, Nat.shiftRight_eq_div_pow]
    exact Nat.div_le_div_right hsize
  have hshift : (vm.tag t).size >>> vm.quantumShift < 2 ^ 64 := by
    rw [Nat.shiftRight_eq_div_pow]
    exact lt_of_le_of_lt (Nat.div_le_self _ _) hword
  have hfirst : btFreeheadToalloc vm l.size .bestfit ≤ btFreeheadTofree vm (vm.tag t).size := by
    unfold btFreeheadToalloc btFreeheadTofree
    rw [if_neg (fun hand => nomatch hand.1)]
    exact size2order_mono hmono
  have hlast : btFreeheadTofree vm (vm.tag t).size < maxorder := size2order_lt hshift
  have hlist : t ∈ vm.freelist (btFreeheadTofree vm (vm.tag t).size) :=
    (h.free.mem _ t).mpr ⟨mem_tagsOf.mpr ⟨ht, Finset.notMem_empty t, hfree⟩, rfl⟩
  have hbest : t ∈ candidates vm l .bestfit := by
    rw [candidates, List.mem_flatMap]
    refine ⟨_, List.mem_range'_1.mpr ⟨hfirst, by omega⟩, ?_⟩
    rw [if_neg (by decide)]
    exact hlist
  unfold tried
  rw [List.mem_append]
  cases strat with
  | bestfit => exact Or.inl hbest
  | firstfit =>
    rw [if_pos rfl]
    exact Or.inr hbest

end classes

/-- `vmem_fit` accepts a tag, which is large enough. -/
def Accepts (vm : Arena) (l : Limits) (t : Nat) : Prop :=
  l.size ≤ (vm.tag t).size ∧ vmemFit (vm.tag t) l ≠ none

/-- The tag an allocation is made from: the first of those looked at that is accepted. -/
def FirstAccepted (vm : Arena) (l : Limits) (strat : Strat) (t : Nat) : Prop :=
  ∃ pre post, tried vm l strat = pre ++ t :: post ∧ (∀ u ∈ pre, ¬ Accepts vm l u) ∧ Accepts vm l t

/-- Where a rounding leads out of the address space, the words do not go on before the
    tag. -/
def LandsInTag (bt : Bt) (l : Limits) : Prop :=
  (2 ^ 64 ≤ lowest bt l → bt.start ≤ restart bt l) ∧
    (lowest bt l < 2 ^ 64 → l.nocross ≠ 0 → 2 ^ 64 < lowest bt l + l.size → bt.start ≤ l.phase)

/-- What an allocation should do: nothing if no free tag is accepted, else take the
    range, of the size in quanta. -/
def AsAsked (vm : Arena) (l : Limits) (vm' : Arena) : Option Nat → Prop
  | none => vm' = vm ∧ ∀ t ∈ vm.seglist, (vm.tag t).type = .free → ¬ Accepts vm l t
  | some addr => Converted vm vm' addr l.size

section fit

variable {bt : Bt} {l : Limits} {a q : Nat}

/-- The address given by `vmem_fit` is not behind the tag. -/
theorem vmemFit_bounds (hl : Asked l) (hstart : bt.start < 2 ^ 64) (hpos : 0 < bt.size)
    (hend : bt.start + bt.size ≤ 2 ^ 64) (h : vmemFit bt l = some a) :
    (bt.start ≤ a ↔ LandsInTag bt l) ∧ a + l.size ≤ bt.start + bt.size := by
  have hsize := hl.size
  have hbtend : btEnd bt = bt.start + bt.size - 1 := by
    unfold btEnd wsub wadd
    omega
  have hstop : upper bt l ≤ bt.start + bt.size - 1 := by
    rw [← hbtend]
    exact Nat.min_le_right _ _
  have hlow : bt.start ≤ lowest bt l := le_trans (Nat.le_max_left _ _) (le_roundTo _ _ _)
  rcases (vmemFit_eq_some hl hstart).mp h with ⟨-, hends, rfl⟩
  refine ⟨?_, by omega⟩
  unfold LandsInTag fitted
  by_cases hlt : lowest bt l < 2 ^ 64
  · rw [if_pos hlt]
    by_cases hwrap : l.nocross ≠ 0 ∧ 2 ^ 64 < lowest bt l + l.size
    · rw [if_pos hwrap]
      exact ⟨fun hle => ⟨fun hge => absurd hlt (Nat.not_lt.mpr hge), fun _ _ _ => hle⟩,
        fun hlands => hlands.2 hlt hwrap.1 hwrap.2⟩
    rw [if_neg hwrap]
    exact ⟨fun _ => ⟨fun hge => absurd hlt (Nat.not_lt.mpr hge),
      fun _ hne hover => absurd ⟨hne, hover⟩ hwrap⟩, fun _ => le_trans hlow (le_pushed l _)⟩
  rw [if_neg hlt]
  exact ⟨fun hle => ⟨fun _ => hle, fun hno => absurd hno hlt⟩,
    fun hlands => hlands.1 (not_lt.mp hlt)⟩

theorem dvd_pushed (hp : q ∣ l.phase) (hn : q ∣ l.nocross) {b : Nat} (hb : q ∣ b) :
    q ∣ pushed l b := by
  unfold pushed
  split
  · exact Nat.dvd_add (Nat.dvd_add (Dvd.dvd.mul_left hn _) hn) hp
  · exact hb

/-- It is a multiple of the quantum. -/
theorem vmemFit_dvd (hl : Asked l) (hstart : bt.start < 2 ^ 64) (hp : q ∣ l.phase)
    (ha : q ∣ l.align) (hn : q ∣ l.nocross) (h : vmemFit bt l = some a) : q ∣ a := by
  have hlow : q ∣ lowest bt l := dvd_roundTo _ hl.align_pos ha hp
  have hrestart : q ∣ restart bt l := by
    refine dvd_pushed hp hn ?_
    split
    · exact Nat.dvd_add hp ha
    · exact hp
  rcases (vmemFit_eq_some hl hstart).mp h with ⟨-, -, rfl⟩
  unfold fitted
  split
  · split
    · exact hp
    · exact dvd_pushed hp hn hlow
  · exact hrestart

end fit

section xalloc

variable {vm : Arena} {gs : List (Nat × List Nat)} {args : XallocArgs}

theorem asked_limits (hq : Pow2 (vm.quantumMask + 1)) (h : ValidArgs vm args) :
    Asked (limits vm args) := by
  have hok := limitsOk hq h
  rcases h with ⟨-, -, hsize, -, -, -, -, -, hphase, hnocross, hmin, hmax, hcross⟩
  refine ⟨hsize, hok.align, ?_, ?_, hmax, hmin, hcross⟩
  · rcases hphase with ⟨-, hzero⟩ | hlt
    · change args.phase < _
      rw [hzero]
      exact Nat.pos_of_ne_zero hok.align.1
    have hne : args.align ≠ 0 := by omega
    change args.phase < if args.align = 0 then _ else args.align
    rwa [if_neg hne]
  rcases hok.nocross with hzero | hpow
  · exact Or.inl hzero
  · exact Or.inr ⟨hpow, hnocross.resolve_left hpow.1⟩

/-- Without an import function a whole allocation is one pass. -/
theorem vmemXalloc_pass (himport : vm.importfn = false) (answers : List (Option Nat)) :
    vmemXalloc vm args answers = xallocPass vm args true := by
  cases answers with
  | nil => rfl
  | cons answer answers =>
    unfold vmemXalloc
    rcases hpass : xallocPass vm args true with _ | ⟨_ | addr, vm'⟩
    · rfl
    · -- A pass that fails leaves the arena as it was, and nothing is imported.
      have hsame : vm' = vm := by
        unfold xallocPass at hpass
        rw [if_pos rfl] at hpass
        dsimp only at hpass
        rcases hsearch : search vm (limits vm args) args.strat with _ | ⟨bt, addr⟩
        · rw [hsearch, Option.some.injEq, Prod.mk.injEq] at hpass
          exact hpass.2.symm
        rw [hsearch] at hpass
        dsimp only at hpass
        rcases hclip : vmemClip vm bt addr (limits vm args).size with _ | vm₁
        · simp only [hclip, Option.map_none, reduceCtorEq] at hpass
        · simp only [hclip, Option.map_some, Option.some.injEq, Prod.mk.injEq, reduceCtorEq,
            false_and] at hpass
      subst hsame
      simp only [vmemImport, himport, Bool.false_eq_true, if_false]
    · rfl

theorem tryTag_eq_none : tryTag vm.tag l t = none ↔ ¬ Accepts vm l t := by
  unfold tryTag Accepts
  rw [Option.map_eq_none_iff]
  split
  case isTrue hsize => simp only [hsize, true_and, ne_eq, not_not]
  case isFalse hsize => simp only [hsize, false_and, not_false_eq_true]

/-- The search ends with the first tag that is accepted and the address it was given. -/
theorem search_eq_some {strat : Strat} : search vm l strat = some (t, a) ↔
    FirstAccepted vm l strat t ∧ vmemFit (vm.tag t) l = some a := by
  rw [search_eq, List.findSome?_eq_some_iff]
  have htry : ∀ u, tryTag vm.tag l u = some (t, a) ↔
      u = t ∧ l.size ≤ (vm.tag t).size ∧ vmemFit (vm.tag t) l = some a := by
    intro u
    unfold tryTag
    rw [Option.map_eq_some_iff]
    constructor
    · rintro ⟨a', hfit, heq⟩
      rw [Prod.mk.injEq] at heq
      rcases heq with ⟨rfl, rfl⟩
      split at hfit
      case isTrue hsize => exact ⟨rfl, hsize, hfit⟩
      case isFalse => cases hfit
    · rintro ⟨rfl, hsize, hfit⟩
      exact ⟨a, by rw [if_pos hsize, hfit], rfl⟩
  constructor
  · rintro ⟨pre, u, post, hsplit, hfound, hpre⟩
    rcases (htry u).mp hfound with ⟨rfl, hsize, hfit⟩
    exact ⟨⟨pre, post, hsplit, fun v hv => tryTag_eq_none.mp (hpre v hv), hsize,
      by rw [hfit]; exact Option.some_ne_none a⟩, hfit⟩
  rintro ⟨⟨pre, post, hsplit, hpre, hsize, -⟩, hfit⟩
  exact ⟨pre, t, post, hsplit, (htry t).mpr ⟨rfl, hsize, hfit⟩,
    fun v hv => tryTag_eq_none.mpr (hpre v hv)⟩

/-- The tag an allocation is made from becomes pieces. They are a conversion exactly if the
    address is not before the tag. -/
theorem clip_converted (h : Ok vm ∅ gs) (hvalid : ValidArgs vm args) (ht : t ∈ vm.seglist)
    (hfree : (vm.tag t).type = .free) (hsize : (limits vm args).size ≤ (vm.tag t).size)
    (hfit : vmemFit (vm.tag t) (limits vm args) = some a) :
    ∃ vm', vmemClip vm t a (limits vm args).size = some vm' ∧
      (Converted vm vm' a (limits vm args).size ↔ LandsInTag (vm.tag t) (limits vm args)) := by
  have hl := asked_limits h.quantum hvalid
  have hlim := limitsOk h.quantum hvalid
  have hspan : isSpan (vm.tag t) = false := not_isSpan (Or.inl hfree)
  rcases h.segs.place ht hspan with ⟨G, s, pre, post, Z, rfl⟩
  rcases h.segs.bounds_at with ⟨hpos, hword, hend, hqstart, hqsize⟩
  have hat : At vm (flat G ++ s :: pre) t (post ++ flat Z) :=
    ⟨h.segs.seglist_at, h.segs.nodup, h.segs.fresh,
      List.append_ne_nil_of_right_ne_nil _ (List.cons_ne_nil s pre)⟩
  rcases vmemClip_contents hat a (limits vm args).size with ⟨vm', hclip, hcont⟩
  have hstart : (vm.tag t).start < 2 ^ 64 := by omega
  rcases vmemFit_bounds hl hstart hpos hend hfit with ⟨hlands, hhi⟩
  refine ⟨vm', hclip, ?_⟩
  rw [← hlands]
  have hold : contents vm = (flat G ++ s :: pre).map vm.tag ++ vm.tag t ::
      (post ++ flat Z).map vm.tag := by
    unfold contents
    rw [hat.seglist, List.map_append, List.map_cons]
  constructor
  · intro hconv
    by_contra hbefore
    -- Two of the pieces overlap, but after a conversion no two tags do.
    have hmask : (limits vm args).size + vm.quantumMask < 2 ^ 64 := by
      rcases hlim.dvd_size with ⟨c, hc⟩
      have hdvd : vm.quantumMask + 1 ∣ 2 ^ 64 := by
        rcases h.quantum.eq with ⟨k, hk, hkeq⟩
        rw [hkeq]
        exact Nat.pow_dvd_pow 2 (le_of_lt hk)
      have hlt : (limits vm args).size < 2 ^ 64 := by omega
      have hgap := Nat.le_of_dvd (by omega) (Nat.dvd_sub hdvd hlim.dvd_size)
      omega
    rcases clipped_before hfree hpos hword hend (not_le.mp hbefore) hl.size hmask with
      ⟨x, y, rest, hpieces, hy, hxs, hys, hover⟩
    have hunt := hconv.untangled h.untangled
    rw [hcont, hpieces, Untangled, List.append_assoc, List.pairwise_append, List.cons_append,
      List.pairwise_cons] at hunt
    rcases hunt.2.1.1 y (List.mem_append_left _ hy) with hs | hs | hd
    · rw [hxs] at hs
      cases hs
    · rw [hys] at hs
      cases hs
    · exact hover hd
  intro hlo
  have hq : vm.quantumMask + 1 ∣ a :=
    vmemFit_dvd hl hstart hlim.dvd_phase hlim.dvd_align hlim.dvd_nocross hfit
  have hrest : vm.quantumMask + 1 ∣
      (vm.tag t).start + (vm.tag t).size - (a + (limits vm args).size) :=
    Nat.dvd_sub (Nat.dvd_add hqstart hqsize) (Nat.dvd_add hq hlim.dvd_size)
  refine ⟨_, vm.tag t, _, hold, hfree, hlo, hhi, ?_⟩
  rw [hcont, clipped_inside hfree hword hend hlo hhi hl.size hrest]

/-- For every arena as it should be that imports nothing, and every request as it is
    asserted, an allocation of either strategy fails only where `vmem_fit` accepts no free
    tag, and otherwise converts the range, exactly if the first tag that is accepted gives
    an address that is not before it. -/
theorem xalloc_complete (vm : Arena) (gs : List (Nat × List Nat)) (h : Ok vm ∅ gs)
    (himport : vm.importfn = false) (args : XallocArgs) (hvalid : ValidArgs vm args)
    (answers : List (Option Nat)) :
    (∃ r vm', vmemXalloc vm args answers = some (r, vm') ∧ AsAsked vm (limits vm args) vm' r) ↔
      ∀ t, FirstAccepted vm (limits vm args) args.strat t →
        LandsInTag (vm.tag t) (limits vm args) := by
  rw [vmemXalloc_pass himport]
  unfold xallocPass
  rw [if_pos rfl]
  dsimp only
  rcases hsearch : search vm (limits vm args) args.strat with _ | ⟨t, a⟩
  · have hno : ∀ t ∈ tried vm (limits vm args) args.strat, ¬ Accepts vm (limits vm args) t := by
      intro t ht
      rw [search_eq, List.findSome?_eq_none_iff] at hsearch
      exact tryTag_eq_none.mp (hsearch t ht)
    constructor
    · rintro - t ⟨pre, post, hsplit, -, hacc⟩
      refine absurd hacc (hno t ?_)
      rw [hsplit]
      exact List.mem_append_cons_self
    rintro -
    refine ⟨none, vm, rfl, rfl, fun t ht hfree hacc => ?_⟩
    have hword : (vm.tag t).size < 2 ^ 64 := by
      rcases h.segs.place ht (not_isSpan (Or.inl hfree)) with ⟨G, s, pre, post, Z, rfl⟩
      exact h.segs.bounds_at.2.1
    exact hno t (mem_tried_of_free h.listed ht hfree hacc.1 hword) hacc
  rcases search_eq_some.mp hsearch with ⟨hfirst, hfit⟩
  have htried : t ∈ tried vm (limits vm args) args.strat := by
    rcases hfirst with ⟨pre, post, hsplit, -, -⟩
    rw [hsplit]
    exact List.mem_append_cons_self
  rcases mem_tried h.listed htried with ⟨hseg, hfree⟩
  rcases clip_converted h hvalid hseg hfree hfirst.choose_spec.choose_spec.2.2.1 hfit
    with ⟨vm', hclip, hiff⟩
  simp only [hclip, Option.map_some]
  constructor
  · rintro ⟨r, vm₁, heq, hasked⟩ u hu
    rw [Option.some.injEq, Prod.mk.injEq] at heq
    rcases heq with ⟨rfl, rfl⟩
    -- Only one tag is the first.
    rcases Option.ne_none_iff_exists'.mp hu.choose_spec.choose_spec.2.2.2 with ⟨a', hfit'⟩
    have hsame := search_eq_some.mpr ⟨hu, hfit'⟩
    rw [hsearch, Option.some.injEq, Prod.mk.injEq] at hsame
    rw [← hsame.1]
    exact hiff.mp hasked
  · intro hlands
    exact ⟨some a, vm', rfl, hiff.mpr (hlands t hfirst)⟩

/-- An arena of one span with pages of 4096. -/
def oneSpan (addr size : Nat) : Arena :=
  vmemAdd1 (vmemInit 4096 4096 false false) addr size .spanStatic

theorem oneSpan_ok (addr size : Nat) (h : NewSpan (vmemInit 4096 4096 false false) addr size)
    (hsize : size < 2 ^ 64) : ∃ gs, Ok (oneSpan addr size) ∅ gs := by
  refine vmemAdd1_ok (vmemInit_ok 4096 4096 false false (by decide)) (Or.inr rfl) h ?_
  change 0 + size < 2 ^ 64
  omega

/-- One page out of four. -/
theorem xalloc_complete_page :
    ∃ r vm', vmemXalloc (oneSpan 4096 16384) ⟨4096, 0, 0, 0, 0, 2 ^ 64 - 1, .bestfit⟩ [] =
      some (r, vm') ∧ AsAsked (oneSpan 4096 16384) (limits (oneSpan 4096 16384)
        ⟨4096, 0, 0, 0, 0, 2 ^ 64 - 1, .bestfit⟩) vm' r := by
  rcases oneSpan_ok 4096 16384 (by decide) (by decide) with ⟨gs, hok⟩
  refine (xalloc_complete _ gs hok rfl _ (by decide) []).mpr (fun t ht => ?_)
  rcases ht with ⟨pre, post, hsplit, -, -⟩
  have hin : t ∈ tried (oneSpan 4096 16384) (limits (oneSpan 4096 16384)
      ⟨4096, 0, 0, 0, 0, 2 ^ 64 - 1, .bestfit⟩) .bestfit := by
    rw [hsplit]
    exact List.mem_append_cons_self
  have hone : tried (oneSpan 4096 16384) (limits (oneSpan 4096 16384)
      ⟨4096, 0, 0, 0, 0, 2 ^ 64 - 1, .bestfit⟩) .bestfit = [1] := by decide
  rw [hone, List.mem_singleton] at hin
  subst hin
  unfold LandsInTag
  decide

/-- The last page but one, with an alignment that leads out of the address space. Either
    strategy takes a range that is in no tag. -/
theorem xalloc_leaves_tag : (∃ gs, Ok (oneSpan (2 ^ 64 - 8192) 4096) ∅ gs) ∧ ∀ strat : Strat,
      ValidArgs (oneSpan (2 ^ 64 - 8192) 4096) ⟨4096, 16384, 0, 0, 0, 2 ^ 64 - 1, strat⟩ ∧
      ¬ ∃ r vm', vmemXalloc (oneSpan (2 ^ 64 - 8192) 4096)
          ⟨4096, 16384, 0, 0, 0, 2 ^ 64 - 1, strat⟩ [] = some (r, vm') ∧
        AsAsked (oneSpan (2 ^ 64 - 8192) 4096) (limits (oneSpan (2 ^ 64 - 8192) 4096)
          ⟨4096, 16384, 0, 0, 0, 2 ^ 64 - 1, strat⟩) vm' r := by
  refine ⟨oneSpan_ok _ _ (by decide) (by decide), fun strat => ⟨by cases strat <;> decide, ?_⟩⟩
  rintro ⟨r, vm', hrun, hasked⟩
  have haddr : (vmemXalloc (oneSpan (2 ^ 64 - 8192) 4096)
      ⟨4096, 16384, 0, 0, 0, 2 ^ 64 - 1, strat⟩ []).map Prod.fst = some (some 16384) := by
    cases strat <;> decide
  rw [hrun, Option.map_some, Option.some.injEq] at haddr
  subst haddr
  rcases hasked with ⟨pre, b, post, hold, hfree, hlo, -⟩
  have hin : b ∈ contents (oneSpan (2 ^ 64 - 8192) 4096) := by
    rw [hold]
    exact List.mem_append_cons_self
  have hfar : ∀ c ∈ contents (oneSpan (2 ^ 64 - 8192) 4096), ¬ c.start ≤ 16384 := by
    decide
  exact hfar b hin hlo

end xalloc

end FreeBSDKern.Vmem
