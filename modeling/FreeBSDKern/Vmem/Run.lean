import FreeBSDKern.Vmem.Free

/-!
# Runs of an Arena

A run begins with an empty arena. Its steps are what happens while the lock is
held: a span is added or imported, an allocation makes a pass over the free
lists, an allocation is freed, the hash table is replaced. Callers add spans in
multiples of the quantum that overlap no other, restrict allocations as the
assertions of the source ask for, and free what is allocated.

Two things can go wrong. A span that is not a multiple of the alignment before the
end of the address space can make the rounding of an allocation wrap, and the
arena hands out an address it does not have. And spans that cover all of the
address space make the size of the arena overflow. In every run in which neither
happens the arena is what it should be.

## Main definitions

* `Op`, `exec`: The steps.
* `Valid`: What callers may ask for.
* `SafeStep`: A valid step in which nothing wraps.

## Theorems

* `vmemXalloc_run`: A whole allocation is a sequence of steps.
* `vmemAdd1_ok`, `xallocPass_ok`, `exec_ok`: One step.
-/

namespace FreeBSDKern.Vmem

open Lib Function

inductive Op where
  | add (addr size : Nat) (tags : Bool)
  | xalloc (args : XallocArgs) (tags : Bool)
  | importSpan (size align : Nat) (answer : Option Nat)
  | xfree (addr : Nat)
  | rehash (newhashsize : Nat) (memory : Bool)

/-- A step with its answer, an address for an allocation that succeeds. -/
def exec (vm : Arena) : Op → Option (Option Nat × Arena)
  | .add addr size tags => some (none, if tags then vmemAdd1 vm addr size .spanStatic else vm)
  | .xalloc args tags => xallocPass vm args tags
  | .importSpan size align answer => some (none, (vmemImport vm size align answer).getD vm)
  | .xfree addr => (vmemXfree vm addr).map (fun vm => (none, vm))
  | .rehash newhashsize memory => some (none, if memory then vmemRehash vm newhashsize else vm)

def next (vm : Arena) (op : Op) : Option Arena := (exec vm op).map Prod.snd

/-- A span that can be added: a multiple of the quantum, inside the address space
    and beside all others. -/
def NewSpan (vm : Arena) (addr size : Nat) : Prop :=
  0 < size ∧ size < 2 ^ 64 ∧ addr + size ≤ 2 ^ 64 ∧ vm.quantumMask + 1 ∣ addr ∧
    vm.quantumMask + 1 ∣ size ∧ ∀ t ∈ vm.seglist, isSpan (vm.tag t) = true →
      (vm.tag t).start + (vm.tag t).size ≤ addr ∨ addr + size ≤ (vm.tag t).start

/-- Arguments as the assertions of `vmem_xalloc` ask for them. -/
def ValidArgs (vm : Arena) (args : XallocArgs) : Prop :=
  0 < args.size0 ∧ args.size0 < 2 ^ 64 ∧ 0 < vmemRoundupSize vm args.size0 ∧
    (args.align = 0 ∨ Pow2 args.align) ∧ (args.nocross = 0 ∨ Pow2 args.nocross) ∧
    vm.quantumMask + 1 ∣ args.align ∧ vm.quantumMask + 1 ∣ args.phase ∧
    vm.quantumMask + 1 ∣ args.nocross ∧
    (args.align = 0 ∧ args.phase = 0 ∨ args.phase < args.align) ∧
    (args.nocross = 0 ∨ vmemRoundupSize vm args.size0 ≤ args.nocross) ∧
    args.minaddr ≤ args.maxaddr ∧ args.maxaddr < 2 ^ 64 ∧
    crossP args.phase (wsub (wadd args.phase (vmemRoundupSize vm args.size0)) 1) args.nocross = false

/-- What callers may ask for. -/
def Valid (vm : Arena) : Op → Prop
  | .add addr size _ => NewSpan vm addr size
  | .xalloc args _ => ValidArgs vm args
  | .importSpan size align answer => ∀ addr ∈ answer, NewSpan vm addr (importSize vm size align)
  | .xfree addr => ∃ t ∈ vm.seglist, (vm.tag t).type = .busy ∧ (vm.tag t).start = addr
  | .rehash newhashsize _ => 0 < newhashsize

/-- The tags that are looked at in a scan of the free lists, in their order. -/
def candidates (vm : Arena) (l : Limits) (strat : Strat) : List Nat :=
  let first := btFreeheadToalloc vm l.size strat
  (List.range' first (maxorder - first)).flatMap
    (fun i => if strat = .firstfit then (vm.freelist i).take 1 else vm.freelist i)

/-- The tags that are looked at in a pass. -/
def tried (vm : Arena) (l : Limits) (strat : Strat) : List Nat :=
  candidates vm l strat ++ if strat = .firstfit then candidates vm l .bestfit else []

/-- A look at one tag. -/
def tryTag (tag : Nat → Bt) (l : Limits) (t : Nat) : Option (Nat × Nat) :=
  (if l.size ≤ (tag t).size then vmemFit (tag t) l else none).map (fun addr => (t, addr))

/-- The rounding wraps for none of the tags that are large enough, up to the
    first in which the allocation has a place. -/
def Unwrapped (tag : Nat → Bt) (l : Limits) : List Nat → Prop
  | [] => True
  | t :: ts => (l.size ≤ (tag t).size → NoWrap (tag t) l) ∧
      (tryTag tag l t = none → Unwrapped tag l ts)

/-- A valid step in which nothing wraps: the rounding of an allocation does not,
    and the spans do not come to cover all of the address space. -/
def SafeStep (vm : Arena) (op : Op) : Prop :=
  Valid vm op ∧ match op with
    | .add _ size _ => vm.size + size < 2 ^ 64
    | .xalloc args _ => Unwrapped vm.tag (limits vm args) (tried vm (limits vm args) args.strat)
    | .importSpan size align answer => answer ≠ none → vm.size + importSize vm size align < 2 ^ 64
    | _ => True

instance Unwrapped.decidable (tag : Nat → Bt) (l : Limits) : ∀ ts, Decidable (Unwrapped tag l ts)
  | [] => isTrue trivial
  | t :: ts =>
    have := Unwrapped.decidable tag l ts
    inferInstanceAs (Decidable ((l.size ≤ (tag t).size → NoWrap (tag t) l) ∧
      (tryTag tag l t = none → Unwrapped tag l ts)))

instance (vm : Arena) (addr size : Nat) : Decidable (NewSpan vm addr size) :=
  inferInstanceAs (Decidable (_ ∧ _))

instance (vm : Arena) (args : XallocArgs) : Decidable (ValidArgs vm args) :=
  inferInstanceAs (Decidable (_ ∧ _))

instance Valid.decidable (vm : Arena) : ∀ op, Decidable (Valid vm op)
  | .add addr size _ => inferInstanceAs (Decidable (NewSpan vm addr size))
  | .xalloc args _ => inferInstanceAs (Decidable (ValidArgs vm args))
  | .importSpan size align answer =>
    inferInstanceAs (Decidable (∀ addr ∈ answer, NewSpan vm addr (importSize vm size align)))
  | .xfree addr => inferInstanceAs (Decidable (∃ t ∈ vm.seglist, (vm.tag t).type = .busy ∧
      (vm.tag t).start = addr))
  | .rehash newhashsize _ => inferInstanceAs (Decidable (0 < newhashsize))

instance SafeStep.decidable (vm : Arena) : ∀ op, Decidable (SafeStep vm op)
  | .add addr size tags => inferInstanceAs (Decidable (Valid vm (.add addr size tags) ∧ _))
  | .xalloc args tags => inferInstanceAs (Decidable (Valid vm (.xalloc args tags) ∧
      Unwrapped vm.tag (limits vm args) (tried vm (limits vm args) args.strat)))
  | .importSpan size align answer => inferInstanceAs (Decidable
      (Valid vm (.importSpan size align answer) ∧ (answer ≠ none → _)))
  | .xfree addr => inferInstanceAs (Decidable (Valid vm (.xfree addr) ∧ True))
  | .rehash newhashsize memory =>
    inferInstanceAs (Decidable (Valid vm (.rehash newhashsize memory) ∧ True))

theorem scanList_eq (tag : Nat → Bt) (l : Limits) (strat : Strat) (ts : List Nat) :
    scanList tag l strat ts =
      (if strat = .firstfit then ts.take 1 else ts).findSome? (tryTag tag l) := by
  induction ts with
  | nil => cases strat <;> rfl
  | cons t ts ih =>
    unfold scanList
    cases strat with
    | firstfit =>
      rw [if_pos rfl, if_pos rfl, List.take_succ_cons, List.take_zero, List.findSome?_cons, tryTag]
      cases (if l.size ≤ (tag t).size then vmemFit (tag t) l else none) <;> rfl
    | bestfit =>
      have hne : Strat.bestfit ≠ .firstfit := by decide
      rw [if_neg hne] at ih
      rw [if_neg hne, if_neg hne, ih, List.findSome?_cons, tryTag]
      cases (if l.size ≤ (tag t).size then vmemFit (tag t) l else none) <;> rfl

theorem scanLists_eq (vm : Arena) (l : Limits) (strat : Strat) (n : Nat) : ∀ list,
    scanLists vm l strat n list = ((List.range' list n).flatMap (fun i =>
      if strat = .firstfit then (vm.freelist i).take 1 else vm.freelist i)).findSome?
        (tryTag vm.tag l) := by
  induction n with
  | zero => intro list; rfl
  | succ n ih =>
    intro list
    unfold scanLists
    rw [List.range'_succ, List.flatMap_cons, List.findSome?_append, scanList_eq, ih]
    cases (if strat = .firstfit then (vm.freelist list).take 1
      else vm.freelist list).findSome? (tryTag vm.tag l) <;> rfl

theorem search_eq (vm : Arena) (l : Limits) (strat : Strat) :
    search vm l strat = (tried vm l strat).findSome? (tryTag vm.tag l) := by
  unfold search tried scan
  rw [scanLists_eq, List.findSome?_append]
  have hbest : scanLists vm l .bestfit (maxorder - btFreeheadToalloc vm l.size .bestfit)
      (btFreeheadToalloc vm l.size .bestfit) =
      (candidates vm l .bestfit).findSome? (tryTag vm.tag l) := scanLists_eq _ _ _ _ _
  cases strat with
  | firstfit =>
    rw [if_pos rfl, if_pos rfl, hbest]
    unfold candidates
    cases List.findSome? (tryTag vm.tag l) (List.flatMap _ (List.range'
      (btFreeheadToalloc vm l.size .firstfit) _)) <;> rfl
  | bestfit =>
    have hne : Strat.bestfit ≠ .firstfit := by decide
    rw [if_neg hne, if_neg hne]
    unfold candidates
    cases List.findSome? (tryTag vm.tag l) (List.flatMap _ (List.range'
      (btFreeheadToalloc vm l.size .bestfit) _)) <;> rfl

/-- The tag an allocation is made from. -/
theorem find_unwrapped {tag : Nat → Bt} {l : Limits} {t addr : Nat} (ts : List Nat)
    (hun : Unwrapped tag l ts) (h : ts.findSome? (tryTag tag l) = some (t, addr)) :
    t ∈ ts ∧ NoWrap (tag t) l ∧ vmemFit (tag t) l = some addr := by
  induction ts with
  | nil => cases h
  | cons u ts ih =>
    rw [List.findSome?_cons] at h
    cases htry : tryTag tag l u with
    | none =>
      rw [htry] at h
      rcases ih (hun.2 htry) h with ⟨ht, hrest⟩
      exact ⟨List.mem_cons_of_mem u ht, hrest⟩
    | some r =>
      rw [htry] at h
      rw [tryTag, Option.map_eq_some_iff] at htry
      rcases htry with ⟨a, hfit, hr⟩
      cases hr
      cases h
      by_cases hsize : l.size ≤ (tag t).size
      · rw [if_pos hsize] at hfit
        exact ⟨List.mem_cons_self, hun.1 hsize, hfit⟩
      · rw [if_neg hsize] at hfit
        cases hfit

variable {vm : Arena} {gs : List (Nat × List Nat)}

/-- A new span at the end of the queue. -/
theorem vmemAdd1_ok (h : Ok vm ∅ gs) {addr size : Nat} {type : BtType}
    (htype : type = .span ∨ type = .spanStatic) (hnew : NewSpan vm addr size)
    (htotal : vm.size + size < 2 ^ 64) : ∃ gs', Ok (vmemAdd1 vm addr size type) ∅ gs' := by
  rcases hnew with ⟨hpos, hword, hend, hqa, hqs, hbeside⟩
  have hfresh : ∀ t ∈ vm.seglist, t ≠ vm.nextTag ∧ t ≠ vm.nextTag + 1 := fun t ht => by
    have := h.segs.fresh t ht
    omega
  have hnext : vm.nextTag ∉ vm.seglist := fun hin => (hfresh _ hin).1 rfl
  have hspan : isSpan { start := addr, size := size, type := type } = true := by
    rcases htype with rfl | rfl <;> rfl
  -- The queue with the two new tags behind it.
  have hqueue : insertAfter (vm.seglist ++ [vm.nextTag]) vm.nextTag (vm.nextTag + 1) =
      vm.seglist ++ [vm.nextTag, vm.nextTag + 1] := insertAfter_split _ _ _ _ hnext
  have htag : ∀ t, (vmemAdd1 vm addr size type).tag t = update
      (update vm.tag vm.nextTag ⟨addr, size, type⟩) (vm.nextTag + 1) ⟨addr, size, .free⟩ t :=
    fun _ => rfl
  have htag0 : (vmemAdd1 vm addr size type).tag vm.nextTag = ⟨addr, size, type⟩ := by
    rw [htag, update_of_ne (by omega), update_self]
  have htag1 : (vmemAdd1 vm addr size type).tag (vm.nextTag + 1) = ⟨addr, size, .free⟩ := by
    rw [htag, update_self]
  have hother : ∀ t ∈ vm.seglist, (vmemAdd1 vm addr size type).tag t = vm.tag t := by
    intro t ht
    rw [htag, update_of_ne (hfresh t ht).2, update_of_ne (hfresh t ht).1]
  have hspanseg : ∀ g ∈ gs, g.1 ∈ vm.seglist := fun g hg => by
    rw [h.segs.seglist, mem_flat]
    exact ⟨g, hg, Or.inl rfl⟩
  refine ⟨gs ++ [(vm.nextTag, [vm.nextTag + 1])], ?_, ?_, h.hashsize, h.quantum⟩
  · have hseg : (vmemAdd1 vm addr size type).seglist = vm.seglist ++ [vm.nextTag, vm.nextTag + 1] :=
      hqueue
    have hsize : (vmemAdd1 vm addr size type).size = vm.size + size := wadd_eq htotal
    refine ⟨?_, ?_, fun t ht => ?_, fun g hg => ?_, ?_, ?_, by omega⟩
    · rw [hseg, h.segs.seglist, flat, flat, List.flatMap_append]
      rfl
    · rw [hseg]
      refine List.nodup_append.mpr ⟨h.segs.nodup, by simp, fun t ht u hu heq => ?_⟩
      rw [List.mem_cons, List.mem_singleton] at hu
      rcases hu with rfl | rfl
      · exact (hfresh t ht).1 heq
      · exact (hfresh t ht).2 heq
    · change t < vm.nextTag + 1 + 1
      rw [hseg, List.mem_append, List.mem_cons, List.mem_singleton] at ht
      rcases ht with ht | rfl | rfl
      · have := h.segs.fresh t ht
        omega
      · omega
      · omega
    · rw [List.mem_append, List.mem_singleton] at hg
      rcases hg with hg | rfl
      · refine (h.segs.spans g hg).congr (hother _ (hspanseg g hg)) (fun t ht => ⟨hother t ?_, Iff.rfl⟩)
        rw [h.segs.seglist, mem_flat]
        exact ⟨g, hg, Or.inr ht⟩
      refine ⟨by rw [htag0]; exact hspan, by rw [htag0]; exact hpos, by rw [htag0]; exact hword,
        by rw [htag0]; exact hqa, by rw [htag0]; exact hqs, by rw [htag0]; exact hend, ?_,
        List.isChain_singleton _⟩
      rw [Tiles, htag0, htag1]
      exact ⟨rfl, hpos, hqs, Or.inl rfl, rfl⟩
    · refine List.pairwise_append.mpr ⟨h.segs.beside.imp_of_mem (fun hg hg' hb => ?_),
        List.pairwise_singleton _ _, fun g hg g' hg' => ?_⟩
      · rw [Beside, hother _ (hspanseg _ hg), hother _ (hspanseg _ hg')]
        exact hb
      rw [List.mem_singleton] at hg'
      subst hg'
      rw [Beside, hother _ (hspanseg g hg), htag0]
      exact hbeside g.1 (hspanseg g hg) (h.segs.spans g hg).span
    rw [hsize, List.map_append, List.sum_append, h.segs.size]
    have hmap : gs.map (fun g => ((vmemAdd1 vm addr size type).tag g.1).size) =
        gs.map (fun g => (vm.tag g.1).size) :=
      List.map_congr_left (fun g hg => by rw [hother _ (hspanseg g hg)])
    rw [hmap, List.map_singleton, List.sum_singleton, htag0]
  · -- The span is on no list, and its one piece goes to a free list.
    have h1 := h.listed.newTag ⟨addr, size, type⟩ (vm.seglist ++ [vm.nextTag]) hnext (fun t => by
      rw [List.mem_append, List.mem_singleton, or_comm])
    have hnext1 : vm.nextTag + 1 ∉ vm.seglist ++ [vm.nextTag] := by
      rw [List.mem_append, List.mem_singleton, not_or]
      exact ⟨fun hin => (hfresh _ hin).2 rfl, by omega⟩
    have h2 := h1.newTag ⟨addr, size, .free⟩
      (insertAfter (vm.seglist ++ [vm.nextTag]) vm.nextTag (vm.nextTag + 1)) hnext1 (fun t => by
        rw [hqueue, List.mem_append, List.mem_cons, List.mem_singleton, List.mem_append,
          List.mem_singleton]
        exact or_assoc.symm.trans or_comm)
    have h3 := h2.insfree (x := vm.nextTag + 1) (by
      change _ ∈ insertAfter _ _ _
      rw [hqueue]
      exact List.mem_append_right _ (List.mem_cons_of_mem _ List.mem_cons_self))
      (Finset.mem_insert_self _ _) (congrArg Bt.type htag1)
    have herase : (insert (vm.nextTag + 1) (insert vm.nextTag ∅) : Finset Nat).erase
        (vm.nextTag + 1) = insert vm.nextTag ∅ := by
      refine Finset.erase_insert ?_
      rw [Finset.mem_insert, not_or]
      exact ⟨by omega, Finset.notMem_empty _⟩
    have h4 : Listed (vmemAdd1 vm addr size type) (insert vm.nextTag ∅) := by
      rw [← herase]
      exact ⟨h3.free, h3.busy, h3.inuse, h3.nbusytag⟩
    refine (listed_span ?_).mp h4
    rw [htag0]
    exact hspan

theorem dvd_roundupSize (hq : Pow2 (vm.quantumMask + 1)) (size : Nat) :
    vm.quantumMask + 1 ∣ vmemRoundupSize vm size := by
  rcases hq.eq with ⟨k, hk, hpow⟩
  have hmask : 2 ^ 64 - 1 - vm.quantumMask = 2 ^ 64 - 2 ^ k := by omega
  unfold vmemRoundupSize wadd
  rw [hmask, and_neg_pow _ k (Nat.mod_lt _ (by decide)) (le_of_lt hk), hpow]
  exact Nat.dvd_sub_mod _

theorem limitsOk (hq : Pow2 (vm.quantumMask + 1)) {args : XallocArgs} (h : ValidArgs vm args) :
    LimitsOk (vm.quantumMask + 1) (limits vm args) := by
  rcases h with ⟨-, -, hsize, halign, hnocross, hda, hdp, hdn, hphase, -, hmin, hmax, -⟩
  have hquantum : wadd vm.quantumMask 1 = vm.quantumMask + 1 := wadd_eq hq.2.1
  have hal : (limits vm args).align = if args.align = 0 then vm.quantumMask + 1 else args.align := by
    rw [← hquantum]
    rfl
  refine ⟨hsize, ?_, hnocross, ?_, ?_, dvd_roundupSize hq _, ?_, hdp, hdn⟩
  · rw [hal]
    split
    · exact hq
    · rename_i hne
      exact halign.resolve_left hne
  · change args.phase < 2 ^ 64
    rcases hphase with ⟨-, hzero⟩ | hlt
    · omega
    rcases halign with hzero | hp
    · omega
    · have := hp.2.1
      omega
  · change args.minaddr < 2 ^ 64
    omega
  rw [hal]
  split
  · exact Nat.dvd_refl _
  · exact hda

/-- The tags that are looked at are free. -/
theorem mem_tried (h : Listed vm ∅) {l : Limits} {strat : Strat} {t : Nat}
    (ht : t ∈ tried vm l strat) : t ∈ vm.seglist ∧ (vm.tag t).type = .free := by
  have hcand : ∀ strat, t ∈ candidates vm l strat → ∃ i, t ∈ vm.freelist i := by
    intro strat hin
    rw [candidates, List.mem_flatMap] at hin
    rcases hin with ⟨i, -, hin⟩
    refine ⟨i, ?_⟩
    split at hin
    · exact List.mem_of_mem_take hin
    · exact hin
  have hfree : ∃ i, t ∈ vm.freelist i := by
    rw [tried, List.mem_append] at ht
    rcases ht with ht | ht
    · exact hcand strat ht
    split at ht
    · exact hcand .bestfit ht
    · cases ht
  rcases hfree with ⟨i, hin⟩
  rcases mem_tagsOf.mp ((h.free.mem i t).mp hin).1 with ⟨hseg, -, htype⟩
  exact ⟨hseg, htype⟩

/-- A pass of an allocation in which the rounding does not wrap. -/
theorem xallocPass_ok (h : Ok vm ∅ gs) {args : XallocArgs} (tags : Bool)
    (hvalid : ValidArgs vm args)
    (hun : Unwrapped vm.tag (limits vm args) (tried vm (limits vm args) args.strat)) :
    ∃ r vm' gs', xallocPass vm args tags = some (r, vm') ∧ Ok vm' ∅ gs' := by
  unfold xallocPass
  cases tags with
  | false => exact ⟨none, vm, gs, rfl, h⟩
  | true =>
    simp only [if_true]
    rw [search_eq]
    cases hfind : (tried vm (limits vm args) args.strat).findSome? (tryTag vm.tag (limits vm args))
      with
    | none => exact ⟨none, vm, gs, rfl, h⟩
    | some r =>
      rcases r with ⟨bt, addr⟩
      have hlim := limitsOk h.quantum hvalid
      rcases find_unwrapped _ hun hfind with ⟨hin, hnw, hfit⟩
      rcases mem_tried h.listed hin with ⟨hseg, hfree⟩
      rcases h.segs.place hseg (by rw [isSpan, hfree]; rfl) with ⟨G, s, pre, post, Z, rfl⟩
      rcases h.segs.bounds_at with ⟨hpos, -, hend, -, -⟩
      rcases vmemFit_inside hlim hpos hend hnw hfit with ⟨hlo, hhi, hq⟩
      rcases vmemClip_ok h hseg hfree hlo hhi hlim.size_pos hq hlim.dvd_size with
        ⟨vm', gs', hclip, hok, -, -⟩
      refine ⟨some addr, vm', gs', ?_, hok⟩
      simp only [hclip, Option.map_some]

theorem vmemImport_ok (h : Ok vm ∅ gs) {size align : Nat} {answer : Option Nat}
    (hvalid : ∀ addr ∈ answer, NewSpan vm addr (importSize vm size align))
    (htotal : answer ≠ none → vm.size + importSize vm size align < 2 ^ 64) :
    ∃ gs', Ok ((vmemImport vm size align answer).getD vm) ∅ gs' := by
  unfold vmemImport
  by_cases hfn : vm.importfn = true
  · rw [if_pos hfn]
    cases answer with
    | none => exact ⟨gs, h⟩
    | some addr =>
      exact vmemAdd1_ok h (Or.inl rfl) (hvalid addr rfl) (htotal (by simp))
  · rw [if_neg hfn]
    exact ⟨gs, h⟩

theorem vmemRehash_ok (h : Ok vm ∅ gs) {n : Nat} (hn : 0 < n) : Ok (vmemRehash vm n) ∅ gs := by
  have hbound : ∀ t ∈ vm.seglist, (vm.tag t).size ≤ 2 ^ 64 := by
    intro t ht
    cases hspan : isSpan (vm.tag t) with
    | true =>
      rw [h.segs.seglist, mem_flat] at ht
      rcases ht with ⟨g, hg, rfl | hin⟩
      · have := (h.segs.spans g hg).word
        omega
      have htype := ((h.segs.spans g hg).tiles.tile hin).1
      rcases htype with ht | ht
      · rw [isSpan, ht] at hspan
        cases hspan
      · rw [isSpan, ht] at hspan
        cases hspan
    | false =>
      rcases h.segs.place ht hspan with ⟨G, s, pre, post, Z, rfl⟩
      have := h.segs.bounds_at.2.1
      omega
  rcases vmemRehash_listed h.listed h.hashsize hbound n with ⟨table, heq, hlisted⟩
  refine ⟨?_, hlisted, ?_, ?_⟩
  · rw [heq]
    exact Segs.of_eq h.segs rfl rfl rfl rfl rfl
  · rw [heq]
    exact hn
  · rw [heq]
    exact h.quantum

/-- One step in which nothing wraps. -/
theorem exec_ok (h : Ok vm ∅ gs) {op : Op} (hsafe : SafeStep vm op) :
    ∃ r vm' gs', exec vm op = some (r, vm') ∧ Ok vm' ∅ gs' := by
  cases op with
  | add addr size tags =>
    cases tags with
    | false => exact ⟨none, vm, gs, rfl, h⟩
    | true =>
      rcases vmemAdd1_ok h (Or.inr rfl) hsafe.1 hsafe.2 with ⟨gs', hok⟩
      exact ⟨none, _, gs', rfl, hok⟩
  | xalloc args tags => exact xallocPass_ok h tags hsafe.1 hsafe.2
  | importSpan size align answer =>
    rcases vmemImport_ok h hsafe.1 hsafe.2 with ⟨gs', hok⟩
    exact ⟨none, _, gs', rfl, hok⟩
  | xfree addr =>
    rcases vmemXfree_ok h hsafe.1 with ⟨vm', gs', hrun, hok⟩
    exact ⟨none, vm', gs', by rw [exec, hrun]; rfl, hok⟩
  | rehash newhashsize memory =>
    cases memory with
    | false => exact ⟨none, vm, gs, rfl, h⟩
    | true => exact ⟨none, _, gs, rfl, vmemRehash_ok h hsafe.1⟩

end FreeBSDKern.Vmem
