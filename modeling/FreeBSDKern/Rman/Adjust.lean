import FreeBSDKern.Rman.Ranges

/-!
# Adjusting a Resource

`rman_adjust_resource` moves the bounds of a resource that is not shared. What it
takes or leaves at a bound comes from or goes to the neighbour there, if that is
free, and otherwise to a new entry.

A free neighbour is taken to touch the resource. It does where both come from one
region, but two regions with a hole between them make neighbours that do not,
and then the hole is handed out with the rest. `AdjustOk` asks for neighbours
that touch, as the `KASSERT`s of the source do, at the bounds that are moved.

## Main definitions

* `AdjustOk`: The new bounds are in order, and the free neighbours touch.

## Theorems

* `adjustStart_ok`, `adjustEnd_ok`, `shrinkStart_ok`, `shrinkEnd_ok`: The four
  parts of the function.
* `adjustResource_ok`: Adjusting a resource keeps the invariant.
-/

namespace FreeBSDKern.Rman

open Lib Function

/-- The new bounds are in order, and a free neighbour touches the resource where a
    bound is moved. -/
def AdjustOk (m : Manager) (r start end' : Nat) : Prop :=
  start ≤ end' ∧ (∀ s ∈ freeNeighbour m (prev? m.rmList r), start ≠ (m.res r).rStart →
    (m.res s).rEnd + 1 = (m.res r).rStart) ∧
  ∀ t ∈ freeNeighbour m (next? m.rmList r), end' ≠ (m.res r).rEnd →
    (m.res r).rEnd + 1 = (m.res t).rStart

section Adjust

variable {m : Manager} {pre post : List Nat} {r start end' : Nat}

theorem sub_one {a : Nat} (h0 : 0 < a) (h : a < wordSize) : sub a 1 = a - 1 := by
  unfold sub
  have hsum : a + (wordSize - 1) = (a - 1) + wordSize := by omega
  rw [hsum, Nat.add_mod_right, Nat.mod_eq_of_lt (by omega)]

theorem freeNeighbour_some {o : Option Nat} {s : Nat} (h : freeNeighbour m o = some s) :
    o = some s ∧ m.allocated s = false := by
  rcases Option.filter_eq_some_iff.mp h with ⟨ho, hfree⟩
  exact ⟨ho, by simpa using hfree⟩

theorem freeNeighbour_congr {m' : Manager} {o : Option Nat}
    (h : ∀ s ∈ o, m'.res s = m.res s) : freeNeighbour m' o = freeNeighbour m o := by
  cases o with
  | none => rfl
  | some s => simp [freeNeighbour, Option.filter, Manager.allocated, h s rfl]

/-- What a part of the function leaves alone: what is covered, the sharing lists, and
    the other side of the resource. -/
structure Kept (m m' : Manager) (side : List Nat) : Prop where
  ok : m'.Ok
  extent : Lib.extent m'.ranges = Lib.extent m.ranges
  heads : m'.heads = m.heads
  side : ∀ i ∈ side, m'.res i = m.res i

theorem Kept.unshared {m' : Manager} {side : List Nat} (h : Kept m m' side) (hun : Unshared m r) :
    Unshared m' r := fun i => h.heads ▸ hun i

theorem setEnd_setStart (a b x y : Nat) (hab : a ≠ b) :
    (m.setEnd a x).setStart b y = (m.setStart b y).setEnd a x := by
  simp only [Manager.setEnd, Manager.setStart, Manager.put]
  rw [update_of_ne (Ne.symm hab), update_of_ne hab, update_comm hab]

section

variable (hok : m.Ok) (hlist : m.rmList = pre ++ r :: post) (hun : Unshared m r)
include hok hlist hun

/-- The start is moved to where the free neighbour gives way. -/
theorem adjustStart_ok (hgrow : start < (m.res r).rStart →
      ∃ s, freeNeighbour m pre.getLast? = some s ∧ (m.res s).rStart ≤ start)
    (hle : start ≤ (m.res r).rEnd)
    (htouch : ∀ s ∈ freeNeighbour m pre.getLast?, start ≠ (m.res r).rStart →
      (m.res s).rEnd + 1 = (m.res r).rStart) :
    ∃ pre', Kept m (adjustStart m r start) post ∧
      (adjustStart m r start).rmList = pre' ++ r :: post ∧
      ((adjustStart m r start).res r).rEnd = (m.res r).rEnd ∧
      (((adjustStart m r start).res r).rStart = start ∨
        freeNeighbour m pre.getLast? = none ∧ pre' = pre ∧ adjustStart m r start = m) := by
  have hcore := hok.toCore
  have hnodup := hok.nodup
  rw [hlist] at hnodup
  have hself := (hcore.lt_of_split hlist).2.1
  have hword := hok.word r (by simp [hlist])
  have hprev : prev? m.rmList r = pre.getLast? := by rw [hlist, prev?_append hnodup]
  unfold adjustStart
  rw [hprev]
  cases hs : freeNeighbour m pre.getLast? with
  | none => exact ⟨pre, ⟨hok, rfl, rfl, fun _ _ => rfl⟩, hlist, rfl, .inr ⟨rfl, rfl, rfl⟩⟩
  | some s =>
    dsimp only
    split
    case isTrue heq =>
      exact ⟨pre, ⟨hok, rfl, rfl, fun _ _ => rfl⟩, hlist, rfl, .inl heq.symm⟩
    case isFalse hne =>
    rcases freeNeighbour_some hs with ⟨hlast, hfree⟩
    rcases List.getLast?_eq_some_iff.mp hlast with ⟨pre', rfl⟩
    have hlist' : m.rmList = pre' ++ s :: r :: post := by simp [hlist]
    have hsr : s ≠ r := by
      rintro rfl
      exact notMem_front hnodup (by simp)
    have hspost : ∀ i ∈ post, i ≠ s ∧ i ≠ r := by
      intro i hi
      have hrest := List.nodup_cons.mp (List.nodup_append.mp hnodup).2.1
      refine ⟨?_, fun heq => hrest.1 (heq ▸ hi)⟩
      rintro rfl
      exact (List.nodup_append.mp hnodup).2.2 i (by simp) i (List.mem_cons_of_mem r hi) rfl
    have hsun := hcore.unshared_of_free hfree
    have ht := htouch s (by rw [hs]; rfl) hne
    have hsself := (hcore.lt_of_split hlist').2.1
    have hsres : ((m.setStart r start).res s) = m.res s := update_of_ne hsr _ _
    rw [hsres]
    split
    case isTrue hwhole =>
      -- The neighbour is used up.
      rw [← hwhole]
      have hc := absorb_prev hcore hlist' ht hsun hun
      rcases hok.keep hc with ⟨hok', hcov⟩
      refine ⟨pre', ⟨hok', hcov, rfl, ?_⟩, by simpa using hc.after, ?_, .inl ?_⟩
      · intro i hi
        exact update_of_ne (hspost i hi).2 _ _
      · rw [hc.entries _ List.mem_cons_self]
      · rw [hc.entries _ List.mem_cons_self]
    case isFalse hpart =>
    have hlt : (m.res s).rStart < start := by
      by_cases hg : start < (m.res r).rStart
      · rcases hgrow hg with ⟨s', hs', hle'⟩
        rw [hs] at hs'
        have heq : s = s' := Option.some.inj hs'
        rw [← heq] at hle'
        omega
      · omega
    have hsub : sub start 1 = start - 1 := sub_one (by omega) (by omega)
    have hsucc : start - 1 + 1 = start := by omega
    have hc := move_bound hcore hlist' ht hsun hun (x := start - 1) (by omega) (by omega)
    rw [hsucc, setEnd_setStart s r _ _ hsr] at hc
    rw [hsub]
    rcases hok.keep hc with ⟨hok', hcov⟩
    refine ⟨pre' ++ [s], ⟨hok', hcov, rfl, ?_⟩, by simpa using hc.after, ?_, .inl ?_⟩
    · intro i hi
      exact hc.frame i (by simp [hspost i hi]) (hok.fresh i (by simp [hlist, hi]))
    · rw [hc.entries _ (List.mem_cons_of_mem _ List.mem_cons_self)]
    · rw [hc.entries _ (List.mem_cons_of_mem _ List.mem_cons_self)]

/-- The same for the end. -/
theorem adjustEnd_ok (hgrow : (m.res r).rEnd < end' →
      ∃ t, freeNeighbour m post.head? = some t ∧ end' ≤ (m.res t).rEnd)
    (hle : (m.res r).rStart ≤ end')
    (htouch : ∀ t ∈ freeNeighbour m post.head?, end' ≠ (m.res r).rEnd →
      (m.res r).rEnd + 1 = (m.res t).rStart) :
    ∃ post', Kept m (adjustEnd m r end') pre ∧ (adjustEnd m r end').rmList = pre ++ r :: post' ∧
      ((adjustEnd m r end').res r).rStart = (m.res r).rStart ∧
      (((adjustEnd m r end').res r).rEnd = end' ∨
        freeNeighbour m post.head? = none ∧ post' = post ∧ adjustEnd m r end' = m) := by
  have hcore := hok.toCore
  have hnodup := hok.nodup
  rw [hlist] at hnodup
  have hself := (hcore.lt_of_split hlist).2.1
  have hnext : next? m.rmList r = post.head? := by
    rw [hlist, next?_split r pre post (notMem_front hnodup)]
  unfold adjustEnd
  rw [hnext]
  cases ht : freeNeighbour m post.head? with
  | none => exact ⟨post, ⟨hok, rfl, rfl, fun _ _ => rfl⟩, hlist, rfl, .inr ⟨rfl, rfl, rfl⟩⟩
  | some t =>
    dsimp only
    split
    case isTrue heq =>
      exact ⟨post, ⟨hok, rfl, rfl, fun _ _ => rfl⟩, hlist, rfl, .inl heq.symm⟩
    case isFalse hne =>
    rcases freeNeighbour_some ht with ⟨hhead, hfree⟩
    rcases List.head?_eq_some_iff.mp hhead with ⟨post', rfl⟩
    have hlist' : m.rmList = pre ++ [r] ++ t :: post' := by simp [hlist]
    have hnodup' := hok.nodup
    rw [hlist'] at hnodup'
    have htr : t ≠ r := by
      rintro rfl
      exact notMem_front hnodup' (by simp)
    have hpre : ∀ i ∈ pre, i ≠ r ∧ i ≠ t := by
      intro i hi
      constructor
      · rintro rfl
        exact notMem_front hnodup hi
      · rintro rfl
        exact notMem_front hnodup' (by simp [hi])
    have htun := hcore.unshared_of_free hfree
    have htt := htouch t (by rw [ht]; rfl) hne
    have htself := (hcore.lt_of_split hlist').2.1
    have htword := hok.word t (by simp [hlist])
    have htres : ((m.setEnd r end').res t) = m.res t := update_of_ne htr _ _
    rw [htres]
    split
    case isTrue hwhole =>
      rw [← hwhole]
      have hc := absorb_next hcore hlist htt hun htun
      rcases hok.keep hc with ⟨hok', hcov⟩
      refine ⟨post', ⟨hok', hcov, rfl, ?_⟩, by simpa using hc.after, ?_, .inl ?_⟩
      · intro i hi
        exact update_of_ne (hpre i hi).1 _ _
      · rw [hc.entries _ List.mem_cons_self]
      · rw [hc.entries _ List.mem_cons_self]
    case isFalse hpart =>
    have hlt : end' < (m.res t).rEnd := by
      by_cases hg : (m.res r).rEnd < end'
      · rcases hgrow hg with ⟨t', ht', hle'⟩
        rw [ht] at ht'
        have heq : t = t' := Option.some.inj ht'
        rw [← heq] at hle'
        omega
      · omega
    have hmax := ulongMax_succ
    have hadd : add end' 1 = end' + 1 := add_one (by omega)
    have hc := move_bound hcore hlist htt hun htun hle hlt
    rw [hadd]
    rcases hok.keep hc with ⟨hok', hcov⟩
    refine ⟨t :: post', ⟨hok', hcov, rfl, ?_⟩, by simpa using hc.after, ?_, .inl ?_⟩
    · intro i hi
      exact hc.frame i (by simp [hpre i hi]) (hok.fresh i (by simp [hlist, hi]))
    · rw [hc.entries _ List.mem_cons_self]
    · rw [hc.entries _ List.mem_cons_self]

/-- What is left at the start becomes an entry of its own. -/
theorem shrinkStart_ok (hle : start ≤ (m.res r).rEnd)
    (hnone : start > (m.res r).rStart → freeNeighbour m pre.getLast? = none) :
    ∃ pre', Kept m (shrinkStart m r start) post ∧
      (shrinkStart m r start).rmList = pre' ++ r :: post ∧
      ((shrinkStart m r start).res r).rEnd = (m.res r).rEnd ∧
      ((shrinkStart m r start).res r).rStart = max start (m.res r).rStart := by
  have hcore := hok.toCore
  have hnodup := hok.nodup
  rw [hlist] at hnodup
  have hrpost : ∀ i ∈ post, i ≠ r :=
    fun i hi heq => (List.nodup_cons.mp (List.nodup_append.mp hnodup).2.1).1 (heq ▸ hi)
  have hword := hok.word r (by simp [hlist])
  unfold shrinkStart
  split
  case isFalse hnot =>
    exact ⟨pre, ⟨hok, rfl, rfl, fun _ _ => rfl⟩, hlist, rfl, by omega⟩
  case isTrue hgt =>
  have hprev : prev? m.rmList r = pre.getLast? := by rw [hlist, prev?_append hnodup]
  have hfree : freeNeighbour (m.setStart r start) (prev? (m.setStart r start).rmList r) = none := by
    show freeNeighbour (m.setStart r start) (prev? m.rmList r) = none
    rw [hprev, ← hnone hgt]
    refine freeNeighbour_congr (fun s hs => ?_)
    have hsr : s ≠ r := by
      rintro rfl
      exact notMem_front hnodup (List.mem_of_getLast? hs)
    exact update_of_ne hsr _ _
  dsimp only
  rw [hfree]
  dsimp only
  have hsub : sub start 1 = start - 1 := sub_one (by omega) (by omega)
  have hsucc : start - 1 + 1 = start := by omega
  have hc := split_front hcore hlist hun 0#32 (x := start - 1) (by omega) (by omega)
  rw [hsucc] at hc
  rw [hsub, Manager.alloc_snd, Manager.setStart_nextRes]
  rcases hok.keep hc with ⟨hok', hcov⟩
  have hentry := hc.entries _ (List.mem_cons_of_mem _ List.mem_cons_self)
  refine ⟨pre ++ [m.nextRes], ⟨hok', hcov, rfl, ?_⟩, by simpa using hc.after, ?_, ?_⟩
  · intro i hi
    exact hc.frame i (by simp [hrpost i hi]) (hok.fresh i (by simp [hlist, hi]))
  · rw [hentry]
  rw [hentry]
  dsimp only
  omega

/-- The same for the end. -/
theorem shrinkEnd_ok (hle : (m.res r).rStart ≤ end')
    (hnone : end' < (m.res r).rEnd → freeNeighbour m post.head? = none) :
    Kept m (shrinkEnd m r end') pre := by
  have hcore := hok.toCore
  have hnodup := hok.nodup
  rw [hlist] at hnodup
  have hrpre : ∀ i ∈ pre, i ≠ r := fun i hi heq => notMem_front hnodup (heq ▸ hi)
  have hword := hok.word r (by simp [hlist])
  unfold shrinkEnd
  split
  case isFalse => exact ⟨hok, rfl, rfl, fun _ _ => rfl⟩
  case isTrue hlt =>
  have hnext : next? m.rmList r = post.head? := by
    rw [hlist, next?_split r pre post (notMem_front hnodup)]
  have hfree : freeNeighbour (m.setEnd r end') (next? (m.setEnd r end').rmList r) = none := by
    show freeNeighbour (m.setEnd r end') (next? m.rmList r) = none
    rw [hnext, ← hnone hlt]
    refine freeNeighbour_congr (fun t ht => ?_)
    have htr : t ≠ r := by
      rintro rfl
      exact (List.nodup_cons.mp (List.nodup_append.mp hnodup).2.1).1 (List.mem_of_head? ht)
    exact update_of_ne htr _ _
  dsimp only
  rw [hfree]
  dsimp only
  have hmax := ulongMax_succ
  have hadd : add end' 1 = end' + 1 := add_one (by omega)
  have hc := split_back hcore hlist hun 0#32 hle hlt
  rw [hadd, Manager.alloc_snd, Manager.setEnd_nextRes]
  rcases hok.keep hc with ⟨hok', hcov⟩
  refine ⟨hok', hcov, rfl, ?_⟩
  intro i hi
  exact hc.frame i (by simp [hrpre i hi]) (hok.fresh i (by simp [hlist, hi]))

/-- The four parts one after the other. A bound that the first two have not moved
    has no free neighbour. -/
theorem adjustParts_ok (hcond : AdjustOk m r start end') (hover : ¬(end' < (m.res r).rStart ∨ (m.res r).rEnd < start))
    (hgrow : ¬(start < (m.res r).rStart ∧ (freeNeighbour m (prev? m.rmList r)).all
      (fun s => (m.res s).rStart > start) = true))
    (hgrow' : ¬(end' > (m.res r).rEnd ∧ (freeNeighbour m (next? m.rmList r)).all
      (fun t => (m.res t).rEnd < end') = true)) :
    (shrinkEnd (shrinkStart (adjustEnd (adjustStart m r start) r end') r start) r end').Ok ∧
      extent (shrinkEnd (shrinkStart (adjustEnd (adjustStart m r start) r end') r start) r end').ranges =
        extent m.ranges := by
  rcases hcond with ⟨hle, htouch, htouch'⟩
  rw [not_or] at hover
  have hnodup := hok.nodup
  rw [hlist] at hnodup
  have hprev : prev? m.rmList r = pre.getLast? := by rw [hlist, prev?_append hnodup]
  have hnext : next? m.rmList r = post.head? := by
    rw [hlist, next?_split r pre post (notMem_front hnodup)]
  rw [hprev] at hgrow htouch
  rw [hnext] at hgrow' htouch'
  have hroom : start < (m.res r).rStart →
      ∃ s, freeNeighbour m pre.getLast? = some s ∧ (m.res s).rStart ≤ start := by
    intro hlt
    cases hs : freeNeighbour m pre.getLast? with
    | none => exact absurd ⟨hlt, by rw [hs]; rfl⟩ hgrow
    | some s =>
      rw [hs] at hgrow
      refine ⟨s, rfl, ?_⟩
      by_contra hgt
      exact hgrow ⟨hlt, by simpa using hgt⟩
  rcases adjustStart_ok hok hlist hun hroom (by omega) htouch with
    ⟨pre₁, hkept₁, hlist₁, hend₁, hstart₁⟩
  generalize adjustStart m r start = m₁ at *
  -- The start has no influence on the neighbour behind.
  have hnext₁ : freeNeighbour m₁ post.head? = freeNeighbour m post.head? :=
    freeNeighbour_congr (fun t ht => hkept₁.side t (List.mem_of_head? ht))
  have hroom' : (m₁.res r).rEnd < end' →
      ∃ t, freeNeighbour m₁ post.head? = some t ∧ end' ≤ (m₁.res t).rEnd := by
    rw [hend₁, hnext₁]
    intro hlt
    cases ht : freeNeighbour m post.head? with
    | none => exact absurd ⟨hlt, by rw [ht]; rfl⟩ hgrow'
    | some t =>
      rw [ht] at hgrow'
      refine ⟨t, rfl, ?_⟩
      rw [hkept₁.side t (List.mem_of_head? (freeNeighbour_some ht).1)]
      by_contra hgt
      exact hgrow' ⟨hlt, by simpa using hgt⟩
  have hun₁ := hkept₁.unshared hun
  have hle₁ : (m₁.res r).rStart ≤ end' := by
    rcases hstart₁ with heq | ⟨-, -, heq⟩
    · omega
    · rw [heq]
      omega
  have htouch₁ : ∀ t ∈ freeNeighbour m₁ post.head?, end' ≠ (m₁.res r).rEnd →
      (m₁.res r).rEnd + 1 = (m₁.res t).rStart := by
    rw [hend₁, hnext₁]
    intro t ht hne
    rw [hkept₁.side t (List.mem_of_head? (freeNeighbour_some ht).1)]
    exact htouch' t ht hne
  rcases adjustEnd_ok hkept₁.ok hlist₁ hun₁ hroom' hle₁ htouch₁ with
    ⟨post₂, hkept₂, hlist₂, hstart₂, hend₂⟩
  generalize adjustEnd m₁ r end' = m₂ at *
  have hun₂ := hkept₂.unshared hun₁
  have hle₂ : start ≤ (m₂.res r).rEnd := by
    rcases hend₂ with heq | ⟨-, -, heq⟩
    · omega
    · rw [heq]
      omega
  have hnone₂ : start > (m₂.res r).rStart → freeNeighbour m₂ pre₁.getLast? = none := by
    rw [hstart₂]
    intro hgt
    rcases hstart₁ with heq | ⟨hnone, hpre, heq⟩
    · omega
    · rw [freeNeighbour_congr (fun s hs => hkept₂.side s (List.mem_of_getLast? hs)), heq, hpre]
      exact hnone
  rcases shrinkStart_ok hkept₂.ok hlist₂ hun₂ hle₂ hnone₂ with
    ⟨pre₃, hkept₃, hlist₃, hend₃, hstart₃⟩
  generalize shrinkStart m₂ r start = m₃ at *
  have hnone₃ : end' < (m₃.res r).rEnd → freeNeighbour m₃ post₂.head? = none := by
    rw [hend₃]
    intro hlt
    rcases hend₂ with heq | ⟨hnone, hpost, heq⟩
    · omega
    · rw [freeNeighbour_congr (fun t ht => hkept₃.side t (List.mem_of_head? ht)), heq, hpost]
      exact hnone
  have hkept₄ := shrinkEnd_ok hkept₃.ok hlist₃ (hkept₃.unshared hun₂) (by omega) hnone₃
  exact ⟨hkept₄.ok, by rw [hkept₄.extent, hkept₃.extent, hkept₂.extent, hkept₁.extent]⟩

end

/-- A resource that is held and not shareable is in the list, and not shared. -/
theorem listed_of_held (hok : m.Ok) (hheld : held m r = true)
    (hshare : has (m.res r).rFlags rfShareable = false) : r ∈ m.rmList ∧ Unshared m r := by
  have hun : Unshared m r := by
    intro h hin
    rcases hok.toCore.group hin with ⟨lead, hg⟩
    have := hg.shareable r hin
    rw [hshare] at this
    exact absurd this Bool.false_ne_true
  refine ⟨?_, hun⟩
  rw [held, Bool.and_eq_true, Bool.or_eq_true] at hheld
  rcases hheld.2 with hin | hin
  · exact of_decide_eq_true hin
  cases hhead : (m.res r).rSharehead with
  | none =>
    rw [hhead] at hin
    exact absurd hin Bool.false_ne_true
  | some h =>
    rw [hhead] at hin
    exact absurd (of_decide_eq_true hin) (hun h)

/-- Adjusting a resource keeps the invariant, and what the manager covers. -/
theorem adjustResource_ok (hok : m.Ok) (hheld : held m r = true)
    (hcond : AdjustOk m r start end') : (adjustResource m r start end').1.Ok ∧
      extent (adjustResource m r start end').1.ranges = extent m.ranges := by
  unfold adjustResource
  dsimp only
  split
  case isTrue => exact ⟨hok, rfl⟩
  case isFalse hshare =>
  split
  case isTrue => exact ⟨hok, rfl⟩
  case isFalse hover =>
  split
  case isTrue => exact ⟨hok, rfl⟩
  case isFalse hgrow =>
  split
  case isTrue => exact ⟨hok, rfl⟩
  case isFalse hgrow' =>
    rcases listed_of_held hok hheld (Bool.eq_false_iff.mpr hshare) with ⟨hr, hun⟩
    rcases List.append_of_mem hr with ⟨pre, post, hlist⟩
    exact adjustParts_ok hok hlist hun hcond hover hgrow hgrow'

end Adjust

end FreeBSDKern.Rman
