import FreeBSDKern.Sem.Ledger

/-!
# Taking Adjustments Back

`sys_semop` remembers its operations one by one, and when one of them cannot be
remembered it takes the ones before it back, in reverse order. Taking back has to
succeed: if it fails, the kernel panics.

It does succeed. An entry that has been removed can be created again, since
there was room for it and its adjustment was in range; one that has been changed had
an adjustment in range before; one that is new is removed. The order of the
entries is not the old one afterwards, so all of it is said up to a permutation.

An entry that is created again has the sequence number of the call. So this is true
only if the entry that was removed had that number too: no entry may be left over
from a set that had the same index.

## Main definitions

* `Owing`: The entries of a process are in range and current.
* `BackTo`: Taking a list of operations back leads to given entries.

## Theorems

* `changes_adjustEnts`: An adjustment that can be made is made.
* `Owing.undo`: An adjustment can be taken back.
* `undoBack_back`, `undoLoop_atomic`, `undoPart_atomic`: The loops.
-/

namespace FreeBSDKern.Sem

/-- The entries of a process: in range, not too many, and of sets that are there. -/
structure Owing (inf : Seminfo) (V : Nat → Nat → Prop) (ents : List Undo) : Prop where
  good : Good ents
  fits : ∀ e ∈ ents, Fits inf e.adjval
  length : ents.length ≤ inf.semume
  current : ∀ e ∈ ents, V e.id e.seq

theorem Owing.nil (inf : Seminfo) (V : Nat → Nat → Prop) : Owing inf V [] :=
  ⟨Good.nil, fun _ he => absurd he List.not_mem_nil, zero_le,
    fun _ he => absurd he List.not_mem_nil⟩

variable {inf : Seminfo} {ents : List Undo} {u : Undos}

theorem Owing.perm {V : Nat → Nat → Prop} {ents' : List Undo} (h : Owing inf V ents)
    (hp : ents.Perm ents') : Owing inf V ents' :=
  ⟨h.good.perm hp, fun e he => h.fits e (hp.mem_iff.mpr he), hp.length_eq ▸ h.length,
    fun e he => h.current e (hp.mem_iff.mpr he)⟩

/-- Some of the entries. -/
theorem Owing.subset {V : Nat → Nat → Prop} {ents' : List Undo} (h : Owing inf V ents)
    (hg : Good ents') (hsub : ∀ e ∈ ents', e ∈ ents) : Owing inf V ents' := by
  have hnd : ents'.Nodup := List.Nodup.of_map (fun e : Undo => (e.id, e.num)) hg.once
  exact ⟨hg, fun e he => h.fits e (hsub e he),
    le_trans (List.subperm_of_subset hnd hsub).length_le h.length,
    fun e he => h.current e (hsub e he)⟩

section Entries

variable {inf : Seminfo} {V : Nat → Nat → Prop} {id seq num : Nat} {a : Int}
  {ents ents' : List Undo}

theorem Changes.perm {u u' : List Undo} (h : Changes inf id seq num a ents ents')
    (hp : u.Perm ents) (hp' : u'.Perm ents') : Changes inf id seq num a u u' := by
  cases h with
  | gone e rest hents hkey hzero hents' =>
    exact Changes.gone e rest (hp.trans hents) hkey hzero (hp'.trans hents')
  | changed e rest hents hkey hne hfits hents' =>
    exact Changes.changed e rest (hp.trans hents) hkey hne hfits (hp'.trans hents')
  | created hnone hfits hroom hents' =>
    exact Changes.created (fun e he => hnone e (hp.mem_iff.mp he)) hfits
      (hp.length_eq ▸ hroom) (hp'.trans (hents'.trans (hp.symm.cons _)))

-- A semaphore has one entry.
theorem Good.unique (hg : Good ents) {e d : Undo} {rest rest' : List Undo}
    (he : ents.Perm (e :: rest)) (hd : ents.Perm (d :: rest'))
    (hkey : d.id = e.id ∧ d.num = e.num) : d = e ∧ rest'.Perm rest := by
  have hrest := (good_cons.mp (hg.perm he)).1
  have hde : d = e := by
    rcases List.mem_cons.mp (he.mem_iff.mp (hd.mem_iff.mpr List.mem_cons_self)) with heq | hin
    · exact heq
    · exact absurd hkey (hrest d hin)
  subst hde
  exact ⟨rfl, (hd.symm.trans he).cons_inv⟩

/-- The entries stay in range and current. -/
theorem Owing.adjustEnts (h : Owing inf V ents) (ha : a ≠ 0) (hcur : V id seq)
    (hadj : adjustEnts inf ents id seq num a = .ok ents') : Owing inf V ents' := by
  have hgood := h.good.adjustEnts ha hadj
  cases adjustEnts_changes ha hadj with
  | gone e rest hents hkey hzero hents' =>
    exact h.subset hgood (fun d hd => hents.mem_iff.mpr (List.mem_cons_of_mem _ (hents'.mem_iff.mp hd)))
  | changed e rest hents hkey hne hfits hents' =>
    have hrest : ∀ d ∈ rest, d ∈ ents := fun d hd => hents.mem_iff.mpr (List.mem_cons_of_mem _ hd)
    refine ⟨hgood, fun d hd => ?_, (hents'.length_eq.trans hents.length_eq.symm).trans_le h.length,
      fun d hd => ?_⟩
    · rcases List.mem_cons.mp (hents'.mem_iff.mp hd) with rfl | hd
      · exact hfits
      · exact h.fits d (hrest d hd)
    rcases List.mem_cons.mp (hents'.mem_iff.mp hd) with rfl | hd
    · exact h.current e (hents.mem_iff.mpr List.mem_cons_self)
    · exact h.current d (hrest d hd)
  | created hnone hfits hroom hents' =>
    refine ⟨hgood, fun d hd => ?_, hents'.length_eq.trans_le (lt_of_le_of_ne h.length hroom),
      fun d hd => ?_⟩
    · rcases List.mem_cons.mp (hents'.mem_iff.mp hd) with rfl | hd
      · exact hfits
      · exact h.fits d hd
    rcases List.mem_cons.mp (hents'.mem_iff.mp hd) with rfl | hd
    · exact hcur
    · exact h.current d hd

/-- The entry of a semaphore is found. -/
theorem Good.found (hg : Good ents) {e : Undo} {rest : List Undo} (hents : ents.Perm (e :: rest))
    (hkey : e.id = id ∧ e.num = num) : ∃ i, i < ents.length ∧
      ents.findIdx? (fun e => e.id = id ∧ e.num = num) = some i ∧ ents[i]? = some e ∧
      (ents.eraseIdx i).Perm rest := by
  cases hfind : ents.findIdx? (fun e => e.id = id ∧ e.num = num) with
  | none =>
    rw [List.findIdx?_eq_none_iff] at hfind
    exact absurd hkey (of_decide_eq_false (hfind e (hents.mem_iff.mpr List.mem_cons_self)))
  | some i =>
    rw [List.findIdx?_eq_some_iff_getElem] at hfind
    rcases hfind with ⟨hi, hkey', -⟩
    rw [decide_eq_true_iff] at hkey'
    have hget := List.getElem?_eq_getElem hi
    have heq := hg.unique hents (perm_getElem? hget).2
      ⟨hkey'.1.trans hkey.1.symm, hkey'.2.trans hkey.2.symm⟩
    exact ⟨i, hi, rfl, hget.trans (congrArg some heq.1), heq.2⟩

theorem changes_adjustEnts (hg : Good ents) (ha : a ≠ 0) (h : Changes inf id seq num a ents ents') :
    ∃ r, adjustEnts inf ents id seq num a = .ok r ∧ r.Perm ents' := by
  unfold Sem.adjustEnts
  cases h with
  | gone e rest hents hkey hzero hents' =>
    rcases hg.found hents hkey with ⟨i, hi, hfind, hget, hrest⟩
    refine ⟨removeEnt ents i, ?_, (removeEnt_perm hi).trans (hrest.trans hents'.symm)⟩
    simp only [hfind, hget, if_neg ha]
    rw [if_neg (by omega), if_pos hzero]
  | changed e rest hents hkey hne hfits hents' =>
    rcases hg.found hents hkey with ⟨i, hi, hfind, hget, hrest⟩
    refine ⟨ents.set i { e with adjval := a + e.adjval }, ?_,
      (List.set_perm_cons_eraseIdx hi _).trans ((hrest.cons _).trans hents'.symm)⟩
    unfold Fits at hfits
    simp only [hfind, hget, if_neg ha]
    rw [if_neg (by omega), if_neg hne]
  | created hnone hfits hroom hents' =>
    have hfind : ents.findIdx? (fun e => e.id = id ∧ e.num = num) = none := by
      rw [List.findIdx?_eq_none_iff]
      exact fun e he => decide_eq_false (hnone e he)
    refine ⟨_, ?_, (List.perm_append_singleton _ _).trans hents'.symm⟩
    unfold Fits at hfits
    rw [hfind]
    simp only
    rw [if_neg ha, if_neg (by omega), if_pos hroom]

theorem Owing.undo (h : Owing inf (fun i s => i = id → s = seq) ents) (ha : a ≠ 0)
    (hadj : Sem.adjustEnts inf ents id seq num a = .ok ents') :
    Changes inf id seq num (-a) ents' ents := by
  rcases adjustEnts_changes ha hadj with ⟨e, rest, hents, ⟨hid, hnum⟩, hsum, hents'⟩ |
    ⟨e, rest, hents, ⟨hid, hnum⟩, hsum, hfits, hents'⟩ | ⟨hno, hfits, hroom, hents'⟩
  · -- The entry that went comes back, with the number of the call.
    have hmem := hents.mem_iff.mpr List.mem_cons_self
    have hval : e.adjval = -a := by omega
    have heq : e = ⟨-a, num, id, seq⟩ := by
      have hcur := h.current e hmem hid
      rcases e with ⟨adjval, n, i, s⟩
      simp only at hid hnum hval hcur
      rw [hid, hnum, hval, hcur]
    have hfits := h.fits e hmem
    rw [hval] at hfits
    refine Changes.created (fun d hd hkey => ?_) hfits ?_ ?_
    · exact (good_cons.mp (h.good.perm hents)).1 d (hents'.mem_iff.mp hd)
        ⟨hkey.1.trans hid.symm, hkey.2.trans hnum.symm⟩
    · have hlen := h.length
      rw [hents.length_eq, List.length_cons] at hlen
      rw [hents'.length_eq]
      omega
    · rw [← heq]
      exact hents.trans (hents'.symm.cons e)
  · -- The entry is what it was.
    have hmem := hents.mem_iff.mpr List.mem_cons_self
    have hback : -a + (a + e.adjval) = e.adjval := by omega
    refine Changes.changed { e with adjval := a + e.adjval } rest hents' ⟨hid, hnum⟩ ?_ ?_ ?_
    · simp only [hback]
      exact h.good.ne e hmem
    · simp only [hback]
      exact h.fits e hmem
    · simp only [hback]
      exact hents
  · exact Changes.gone ⟨a, num, id, seq⟩ ents hents' ⟨rfl, rfl⟩ (by simp only; omega)
      (List.Perm.refl _)

end Entries

/-- Taking a list of operations back leads to the entries `E`, and does not go on behind
    the last entry. -/
def BackTo (inf : Seminfo) (c : Call) (E : List Undo) : List Sembuf → List Undo → Prop
  | [], ents => ents.Perm E
  | b :: done, ents =>
    if b.undoes then
      ∃ ents', Changes inf c.idx c.seq b.num b.op ents ents' ∧
        (ents' = [] → done.any Sembuf.undoes = false) ∧ BackTo inf c E done ents'
    else BackTo inf c E done ents

theorem BackTo.perm {c : Call} {E : List Undo} (done : List Sembuf) :
    ∀ {ents ents' : List Undo}, BackTo inf c E done ents → ents'.Perm ents →
      BackTo inf c E done ents' := by
  induction done with
  | nil =>
    intro ents ents' h hp
    exact hp.trans h
  | cons b done ih =>
    intro ents ents' h hp
    unfold BackTo at h ⊢
    split at h
    case isTrue hundo =>
      rw [if_pos hundo]
      rcases h with ⟨r, hr, hlast, hrest⟩
      exact ⟨r, hr.perm hp (List.Perm.refl _), hlast, hrest⟩
    case isFalse hundo =>
      rw [if_neg hundo]
      exact ih h hp

-- The pointer is at a structure once there has been an adjustment.
theorem semundoAdjust_suptr {suptr : Option Nat} {p semid seq num : Nat} {a : Int} (ha : a ≠ 0)
    (h : suptr ≠ none ∨ (semundoAdjust inf u suptr p semid seq num a).2.2 = none) :
    (semundoAdjust inf u suptr p semid seq num a).2.1 ≠ none := by
  cases suptr with
  | some s => exact Option.some_ne_none s
  | none =>
    have herr := h.resolve_left (fun hne => hne rfl)
    unfold semundoAdjust at herr ⊢
    simp only [if_neg ha] at herr ⊢
    cases hof : undoOf u p with
    | some s => exact Option.some_ne_none s
    | none =>
      rw [hof] at herr
      cases halloc : semuAlloc u p with
      | none =>
        rw [halloc] at herr
        cases herr
      | some r => exact Option.some_ne_none r.2

-- An adjustment of a structure in use fails only for its entries.
theorem Books.adjust_made {id : Nat} {P : Nat → Prop} {ex : List Nat} (hb : Books id P u ex)
    {suptr : Option Nat} {p semid seq num : Nat} {a : Int} (hfound : Found u p suptr)
    (hsome : suptr ≠ none) (h : adjustEnts inf (entsOf u p) semid seq num a = .ok ents) :
    (Sem.semundoAdjust inf u suptr p semid seq num a).2.2 = none := by
  cases suptr with
  | none => exact absurd rfl hsome
  | some s =>
    rcases hfound s rfl with ⟨hs, hp⟩
    rw [hb.entsOf_eq hs hp] at h
    unfold Sem.semundoAdjust Sem.adjustIn
    simp only [h]

section Loops

variable {inf : Seminfo} {V : Nat → Nat → Prop} {id : Nat} {P : Nat → Prop} {ex : List Nat}
  {c : Call} {E : List Undo}

/-- Taking adjustments back does not fail, and leads back. -/
theorem undoBack_back (hseq : c.idx = id → P c.seq) (done : List Sembuf) :
    ∀ (u : Undos) (suptr : Option Nat), Books id P u ex →
    (done.any Sembuf.undoes = false ∨ (Found u c.proc suptr ∧ suptr ≠ none)) →
    BackTo inf c E done (entsOf u c.proc) →
    ∃ u', undoBack inf c done u suptr = some u' ∧ Books id P u' ex ∧
      (∀ q, q ≠ c.proc → entsOf u' q = entsOf u q) ∧ (entsOf u' c.proc).Perm E := by
  induction done with
  | nil =>
    intro u suptr hb _ hback
    exact ⟨u, rfl, hb, fun _ _ => rfl, hback⟩
  | cons b done ih =>
    intro u suptr hb hfound hback
    rw [undoBack]
    unfold BackTo at hback
    rw [List.any_cons, Bool.or_eq_false_iff] at hfound
    split at hback
    case isFalse hundo =>
      rw [if_neg hundo]
      exact ih u suptr hb (hfound.imp_left And.right) hback
    case isTrue hundo =>
    rw [if_pos hundo]
    rcases hback with ⟨ents, hchange, hlast, hrest⟩
    have hfound : Found u c.proc suptr ∧ suptr ≠ none :=
      hfound.resolve_left (fun hno => absurd (hno.1.symm.trans hundo) (by decide))
    have hop := Sembuf.op_ne hundo
    have hadj : Adjusted inf id P u ex c.proc c.idx c.seq b.num b.op
        (semundoAdjust inf u suptr c.proc c.idx c.seq b.num b.op) :=
      hb.semundoAdjust inf hfound.1 hop hseq
    rcases changes_adjustEnts (hb.good_entsOf c.proc) hop hchange with ⟨r, hr, hperm⟩
    have hmade := hb.adjust_made hfound.1 hfound.2 hr
    have hsup := semundoAdjust_suptr hop (Or.inr hmade)
    rcases hres : semundoAdjust inf u suptr c.proc c.idx c.seq b.num b.op with ⟨u₁, sup₁, err⟩
    rw [hres] at hadj hmade hsup
    simp only at hmade hsup
    subst hmade
    rcases hadj.result with ⟨e, he, -⟩ | ⟨ents₁, -, hents, hof, hfound₁⟩
    · cases he
    rw [hr, Except.ok.injEq] at hents
    subst hents
    have hnext : done.any Sembuf.undoes = false ∨ (Found u₁ c.proc sup₁ ∧ sup₁ ≠ none) := by
      by_cases hnil : r = []
      · rw [hnil] at hperm
        exact Or.inl (hlast hperm.nil_eq.symm)
      · exact Or.inr ⟨hfound₁ hnil, hsup⟩
    simp only at hof
    rcases ih u₁ sup₁ hadj.books hnext (hrest.perm done (by rw [hof]; exact hperm)) with
      ⟨u', hrun, hb', hq, hE⟩
    exact ⟨u', hrun, hb', fun q hne => (hq q hne).trans (hadj.others q hne), hE⟩

/-- The loop over the adjustments of a vector ends. It makes them all, or the entries are
    those from before. -/
theorem undoLoop_atomic (hseq : c.idx = id → P c.seq) (hcur : V c.idx c.seq)
    (honly : ∀ s, V c.idx s → s = c.seq) (hE : Owing inf V E) (rest : List Sembuf) :
    ∀ (done : List Sembuf) (u : Undos) (suptr : Option Nat), Books id P u ex →
    Owing inf V (entsOf u c.proc) → (rest.any Sembuf.undoes = false ∨ (Found u c.proc suptr ∧
      (suptr = none → done.any Sembuf.undoes = false) ∧
      (entsOf u c.proc = [] → done.any Sembuf.undoes = false))) →
    BackTo inf c E done (entsOf u c.proc) → lastKept inf c (entsOf u c.proc) rest = true →
    ∃ u' err, undoLoop inf c rest done u suptr = some (u', err) ∧ Books id P u' ex ∧
      (∀ q, q ≠ c.proc → entsOf u' q = entsOf u q) ∧ Owing inf V (entsOf u' c.proc) ∧
      (err ≠ none → (entsOf u' c.proc).Perm E) := by
  induction rest with
  | nil =>
    intro done u suptr hb howe _ _ _
    exact ⟨u, none, rfl, hb, fun _ _ => rfl, howe, fun hne => absurd rfl hne⟩
  | cons b rest ih =>
    intro done u suptr hb howe hfound hback hlast
    rw [undoLoop]
    rw [lastKept] at hlast
    rw [List.any_cons, Bool.or_eq_false_iff] at hfound
    by_cases hundo : b.undoes = true
    · rw [if_pos hundo] at hlast ⊢
      have hfound : Found u c.proc suptr ∧ (suptr = none → done.any Sembuf.undoes = false) ∧
          (entsOf u c.proc = [] → done.any Sembuf.undoes = false) :=
        hfound.resolve_left (fun hno => absurd (hno.1.symm.trans hundo) (by decide))
      have hne : -b.op ≠ 0 := by
        have := Sembuf.op_ne hundo
        omega
      have hadj : Adjusted inf id P u ex c.proc c.idx c.seq b.num (-b.op)
          (semundoAdjust inf u suptr c.proc c.idx c.seq b.num (-b.op)) :=
        hb.semundoAdjust inf hfound.1 hne hseq
      have hsup : suptr ≠ none ∨
          (semundoAdjust inf u suptr c.proc c.idx c.seq b.num (-b.op)).2.2 = none →
          (semundoAdjust inf u suptr c.proc c.idx c.seq b.num (-b.op)).2.1 ≠ none :=
        semundoAdjust_suptr hne
      rcases hr : semundoAdjust inf u suptr c.proc c.idx c.seq b.num (-b.op) with ⟨u₁, sup₁, err₁⟩
      rw [hr] at hadj hsup
      simp only at hsup
      cases err₁ with
      | some e =>
        rcases hadj.result with ⟨e', -, hof, hfound₁⟩ | ⟨ents, hno, -⟩
        · simp only at hof hfound₁
          have hready : done.any Sembuf.undoes = false ∨ (Found u₁ c.proc sup₁ ∧ sup₁ ≠ none) := by
            by_cases hnone : suptr = none
            · exact Or.inl (hfound.2.1 hnone)
            · exact Or.inr ⟨hfound₁, hsup (Or.inl hnone)⟩
          rcases undoBack_back hseq done u₁ sup₁ hadj.books hready (by rw [hof]; exact hback)
            with ⟨u₂, hrun, hb', hq, hperm⟩
          refine ⟨u₂, some e, ?_, hb', fun q hne => (hq q hne).trans (hadj.others q hne),
            hE.perm hperm.symm, fun _ => hperm⟩
          simp only [hrun, Option.map_some]
        · cases hno
      | none =>
        rcases hadj.result with ⟨e, he, -⟩ | ⟨ents, -, hents, hof, hfound₁⟩
        · cases he
        rw [hents] at hlast
        simp only [Bool.and_eq_true, Bool.or_eq_true, decide_eq_true_iff,
          Bool.not_eq_true'] at hlast
        simp only at hof hfound₁
        have howe₁ : Owing inf V (entsOf u₁ c.proc) := by
          rw [hof]
          exact howe.adjustEnts hne hcur hents
        have hown : Owing inf (fun i s => i = c.idx → s = c.seq) (entsOf u c.proc) :=
          ⟨howe.good, howe.fits, howe.length, fun e he hid => honly e.seq (hid ▸ howe.current e he)⟩
        -- Taking this adjustment back leads to the entries before it.
        have hback' : BackTo inf c E (b :: done) (entsOf u₁ c.proc) := by
          unfold BackTo
          rw [if_pos hundo]
          refine ⟨entsOf u c.proc, ?_, hfound.2.2, hback⟩
          have hundone := hown.undo hne hents
          rw [Int.neg_neg] at hundone
          rw [hof]
          exact hundone
        have hfound' : rest.any Sembuf.undoes = false ∨ (Found u₁ c.proc sup₁ ∧
            (sup₁ = none → (b :: done).any Sembuf.undoes = false) ∧
            (entsOf u₁ c.proc = [] → (b :: done).any Sembuf.undoes = false)) := by
          by_cases hnil : ents = []
          · exact Or.inl (hlast.1.resolve_left (fun hc => hc hnil))
          · exact Or.inr ⟨hfound₁ hnil, fun hc => absurd hc (hsup (Or.inr rfl)),
              fun hc => absurd (hof ▸ hc) hnil⟩
        rcases ih (b :: done) u₁ sup₁ hadj.books howe₁ hfound' hback'
          (by rw [hof]; exact hlast.2) with ⟨u', err, hrun, hb', hq, howe', hperm⟩
        exact ⟨u', err, hrun, hb', fun q hne => (hq q hne).trans (hadj.others q hne), howe', hperm⟩
    · rw [if_neg hundo] at hlast ⊢
      have hundo' := Bool.eq_false_iff.mpr hundo
      have hfound' : rest.any Sembuf.undoes = false ∨ (Found u c.proc suptr ∧
          (suptr = none → (b :: done).any Sembuf.undoes = false) ∧
          (entsOf u c.proc = [] → (b :: done).any Sembuf.undoes = false)) := by
        rw [List.any_cons, hundo', Bool.false_or]
        exact hfound.imp_left And.right
      have hback' : BackTo inf c E (b :: done) (entsOf u c.proc) := by
        unfold BackTo
        rw [if_neg hundo]
        exact hback
      exact ih (b :: done) u suptr hb howe hfound' hback' hlast

/-- The undo part of a round. -/
theorem undoPart_atomic (hseq : c.idx = id → P c.seq) (hcur : V c.idx c.seq)
    (honly : ∀ s, V c.idx s → s = c.seq) (hb : Books id P u ex)
    (howe : Owing inf V (entsOf u c.proc)) (hlast : lastKept inf c (entsOf u c.proc) c.sops = true)
    : ∃ u' err, undoPart inf c u = some (u', err) ∧ Books id P u' ex ∧
      (∀ q, q ≠ c.proc → entsOf u' q = entsOf u q) ∧ Owing inf V (entsOf u' c.proc) ∧
      (err ≠ none → (entsOf u' c.proc).Perm (entsOf u c.proc)) := by
  unfold undoPart
  split
  case isTrue =>
    exact undoLoop_atomic hseq hcur honly howe c.sops [] u none hb howe
      (Or.inr ⟨fun s hs => (nomatch hs), fun _ => rfl, fun _ => rfl⟩) (List.Perm.refl _) hlast
  case isFalse =>
    exact ⟨u, none, rfl, hb, fun _ _ => rfl, howe, fun hne => absurd rfl hne⟩

end Loops

end FreeBSDKern.Sem
