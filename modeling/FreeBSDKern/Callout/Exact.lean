import FreeBSDKern.Callout.Scan

/-!
# When a Scan Is Exact

A scan hands on exactly the due callouts as long as the ticks since the last one
fit a slot number. The time it reports for the next event is another matter. The
look-ahead stops at the first callout that cannot wait for those before it, which
is right when the slots are visited in the order of their times. A look-ahead
that reaches around the wheel visits some later times first, and then a callout
may be left out that has to run before the time reported.

`Safe` is the condition that this does not happen, read off the wheel before the
scan: there are no callouts `a`, `b` and `e` such that `b` starts after `a` must
have run, within the look-ahead and in a slot no earlier than `a`'s, while the
slot of `e` comes after `b`'s and after the present one although `e` must run
before `a`. It holds whenever the look-ahead does not reach around the wheel, and
also when the ticks since the last scan cover the whole wheel.

## Main definitions

* `WheelOk`: The invariant of the wheel.
* `Pending`: A callout is in the wheel.
* `Safe`: No callout is left out of the look-ahead.

## Theorems

* `safe_of_fits`: A way to be safe.
* `calloutProcess_spec`: A safe scan is exact and keeps the invariant.
* `calloutCcAdd_ok`, `calloutRemove_ok`: So do the other operations.
-/

namespace FreeBSDKern.Callout

def Pending (cc : CalloutCpu) (c : Entry) : Prop := ∃ b, c ∈ cc.wheel b

/-- The wheel between operations. -/
structure WheelOk (k : Nat) (cc : CalloutCpu) : Prop where
  scanned : 0 ≤ cc.lastscan ∧ cc.lastscan ≤ sbtMax
  home : ∀ b c, c ∈ cc.wheel b → b = calloutGetBucket k c.time
  range : ∀ c, Pending cc c → cc.lastscan ≤ c.time ∧ 0 ≤ c.precision ∧ c.time + c.precision ≤ sbtMax
  nodup : ∀ b, (cc.wheel b).Nodup
  single : ∀ c d, Pending cc c → Pending cc d → c.id = d.id → c = d
  next : ∀ c, Pending cc c → cc.firstevent ≤ c.latest

/-- How many slots after the one of the last scan a callout is. -/
def offset (k : Nat) (cc : CalloutCpu) (c : Entry) : Nat :=
  (tick c.time - tick cc.lastscan) % 2 ^ k

structure Safe (k : Nat) (cc : CalloutCpu) (now : Int) : Prop where
  fits : gap cc.lastscan now + 128 ≤ 2 ^ 32
  ordered : ∀ a b e, Pending cc a → Pending cc b → Pending cc e → now < a.time → a.latest < b.time →
    tick b.time < tick now + aheadTicks (gap cc.lastscan now) →
    offset k cc a ≤ offset k cc b → offset k cc b < offset k cc e →
    gap cc.lastscan now < offset k cc e → a.latest ≤ e.latest

variable {k : Nat} {cc : CalloutCpu} {now : Int}

theorem latest_eq (c : Entry) (h0 : 0 ≤ c.time + c.precision) (h : c.time + c.precision ≤ sbtMax) :
    c.latest = c.time + c.precision :=
  toSbt_of_range _ h0 (by unfold sbtMax at h; omega)

section

variable (h : WheelOk k cc) (c : Entry) (hc : Pending cc c)
include h c hc

theorem WheelOk.time_le_latest :
    c.time ≤ c.latest := by
  rcases h.range c hc with ⟨hscan, hprec, hmax⟩
  have := h.scanned.1
  rw [latest_eq c (by omega) hmax]
  omega

theorem WheelOk.nonneg : 0 ≤ c.time := by
  have := h.scanned.1
  have := (h.range c hc).1
  omega

theorem WheelOk.tick_ge :
    tick cc.lastscan ≤ tick c.time := tick_mono _ _ (h.range c hc).1

end

/-- A look-ahead that stays within one round is safe: there the order of the
    slots is the order of the times. -/
theorem safe_of_fits (h : WheelOk k cc) (hk : k ≤ 31)
    (hfit : gap cc.lastscan now + aheadTicks (gap cc.lastscan now) ≤ 2 ^ k)
    (hnow : cc.lastscan ≤ now) : Safe k cc now := by
  have hsize : 2 ^ k ≤ 2 ^ 31 := Nat.pow_le_pow_right (by decide) hk
  have hpos := aheadTicks_pos (gap cc.lastscan now)
  refine ⟨by omega, fun a b e ha hb he hlater hab hnear hoa hoe hge => ?_⟩
  have htick : tick now = tick cc.lastscan + gap cc.lastscan now := by
    have := tick_mono _ _ hnow
    unfold gap
    omega
  have hob : offset k cc b = tick b.time - tick cc.lastscan := Nat.mod_eq_of_lt (by omega)
  have hoe' : offset k cc e ≤ tick e.time - tick cc.lastscan := Nat.mod_le _ _
  have hbe : b.time < e.time := by
    by_contra hle
    have := tick_mono e.time b.time (by omega)
    omega
  have := h.time_le_latest e he
  omega

theorem offset_lt (k : Nat) (cc : CalloutCpu) (c : Entry) : offset k cc c < 2 ^ k :=
  Nat.mod_lt _ (Nat.pow_pos (by decide))

section

variable (h : WheelOk k cc) (hk : k ≤ 31)
include h hk

/-- A callout is in the slot its offset leads to. -/
theorem WheelOk.mem_offset (c : Entry) (hc : Pending cc c) :
    c ∈ cc.wheel ((tick cc.lastscan + offset k cc c) % 2 ^ k) := by
  rcases hc with ⟨b, hb⟩
  have hhome := h.home b c hb
  rw [calloutGetBucket_eq k _ hk (h.nonneg c ⟨b, hb⟩)] at hhome
  have hge := h.tick_ge c ⟨b, hb⟩
  have hslot : (tick cc.lastscan + offset k cc c) % 2 ^ k = b := by
    rw [hhome, offset, Nat.add_mod, Nat.mod_mod, ← Nat.add_mod, Nat.add_sub_cancel' hge]
  rwa [hslot]

theorem WheelOk.offset_eq (c : Entry) (i : Nat) (hi : i < 2 ^ k)
    (hc : c ∈ cc.wheel ((tick cc.lastscan + i) % 2 ^ k)) : offset k cc c = i := by
  have hpend : Pending cc c := ⟨_, hc⟩
  have hhome := h.home _ c hc
  have hhome' := h.home _ c (h.mem_offset hk c hpend)
  have hlt := offset_lt k cc c
  rcases Nat.lt_trichotomy (offset k cc c) i with hlo | heq | hhi
  · exact absurd (hhome'.trans hhome.symm) (slot_ne _ _ _ _ hlo (by omega))
  · exact heq
  · exact absurd (hhome.trans hhome'.symm) (slot_ne _ _ _ _ hhi (by omega))

/-- The callouts visited are those whose offset is small enough. -/
theorem WheelOk.mem_visited (j : Nat) (hj : j ≤ 2 ^ k) (c : Entry) :
    c ∈ visited k (tick cc.lastscan) cc.wheel j ↔ Pending cc c ∧ offset k cc c < j := by
  rw [visited, List.mem_flatMap]
  constructor
  · rintro ⟨i, hi, hc⟩
    have hij := List.mem_range.mp hi
    rw [h.offset_eq hk c i (by omega) hc]
    exact ⟨⟨_, hc⟩, hij⟩
  · rintro ⟨hc, hlt⟩
    exact ⟨offset k cc c, List.mem_range.mpr hlt, h.mem_offset hk c hc⟩

/-- They are visited in the order of their offsets. -/
theorem WheelOk.visited_sorted (j : Nat) (hj : j ≤ 2 ^ k) :
    (visited k (tick cc.lastscan) cc.wheel j).Pairwise
      (fun a b => offset k cc a ≤ offset k cc b) := by
  induction j with
  | zero => exact List.Pairwise.nil
  | succ j ih =>
    rw [visited_succ, List.pairwise_append]
    refine ⟨ih (by omega), List.Pairwise.imp_of_mem ?_ (h.nodup _), fun a ha b hb => ?_⟩
    · intro a b ha hb _
      exact le_of_eq ((h.offset_eq hk a j (by omega) ha).trans
        (h.offset_eq hk b j (by omega) hb).symm)
    rw [h.offset_eq hk b j (by omega) hb]
    have := ((h.mem_visited hk j (by omega) a).mp ha).2
    omega

theorem WheelOk.visited_nodup (j : Nat) (hj : j ≤ 2 ^ k) :
    (visited k (tick cc.lastscan) cc.wheel j).Nodup := by
  induction j with
  | zero => exact List.Pairwise.nil
  | succ j ih =>
    rw [visited_succ, List.nodup_append]
    refine ⟨ih (by omega), h.nodup _, fun a ha b hb heq => ?_⟩
    subst heq
    have hoff := h.offset_eq hk a j (by omega) hb
    have := ((h.mem_visited hk j (by omega) a).mp ha).2
    omega

end

/-- The end of the look-ahead is no later than the start of its last tick. -/
theorem windowEnd_le (now : Int) (n : Nat) (h : 0 ≤ now) :
    toSbt (now + n * 2 ^ 24) / 2 ^ 24 * 2 ^ 24 ≤ ((tick now + n : Nat) : Int) * 2 ^ 24 := by
  have hle : toSbt (now + n * 2 ^ 24) ≤ now + n * 2 ^ 24 := by
    unfold toSbt Int.bmod
    dsimp only
    split
    all_goals omega
  unfold tick
  omega

/-- What a scan leaves in the wheel. -/
theorem WheelOk.mem_wheelAfter (h : WheelOk k cc) (hk : k ≤ 31) (v : Nat)
    (hdue : ∀ c, Pending cc c → c.time ≤ now → offset k cc c ≤ v) (b : Nat) (c : Entry) :
    c ∈ wheelAfter k (tick cc.lastscan) now cc.wheel (v + 1) b ↔ c ∈ cc.wheel b ∧ now < c.time := by
  rw [wheelAfter]
  split
  case isTrue => rw [List.mem_filter, decide_eq_true_eq]
  case isFalse hout =>
  refine ⟨fun hc => ⟨hc, ?_⟩, And.left⟩
  -- A slot that was not visited holds nothing due.
  by_contra hle
  refine hout ⟨offset k cc c, ?_, ?_⟩
  · have := hdue c ⟨b, hc⟩ (by omega)
    omega
  · rw [h.home _ c (h.mem_offset hk c ⟨b, hc⟩), ← h.home b c hc]

/-- The time reported is right for the callouts the scan did not visit. -/
theorem WheelOk.unvisited (h : WheelOk k cc) (hk : k ≤ 31) (hnow : cc.lastscan ≤ now)
    (hsafe : Safe k cc now) (max : Int) (nowb lo hi v l : Nat) (s : Scan)
    (hmax : max ≤ ((tick now + aheadTicks (gap cc.lastscan now) : Nat) : Int) * 2 ^ 24)
    (hlo : lo = min (gap cc.lastscan now) (2 ^ k - 1))
    (hhi : hi = min (gap cc.lastscan now + aheadTicks (gap cc.lastscan now) - 1) (2 ^ k - 1))
    (hs : s.lastb = (tick cc.lastscan + hi) % 2 ^ 32) (hlast : s.last = max)
    (hlv : l ≤ v) (hvh : v ≤ hi) (hlol : lo ≤ l)
    (hlastb : ((visited k (tick cc.lastscan) cc.wheel (v + 1)).foldl (look now max nowb) s).lastb =
      (tick cc.lastscan + l) % 2 ^ 32)
    (e : Entry) (he : Pending cc e) (hout : v < offset k cc e) :
    ((visited k (tick cc.lastscan) cc.wheel (v + 1)).foldl (look now max nowb) s).last
      ≤ e.latest := by
  have hsize : 2 ^ k ≤ 2 ^ 31 := Nat.pow_le_pow_right (by decide) hk
  have hoe := offset_lt k cc e
  have htick : tick now = tick cc.lastscan + gap cc.lastscan now := by
    have := tick_mono _ _ hnow
    unfold gap
    omega
  have hpos := aheadTicks_pos (gap cc.lastscan now)
  have hmem := fun c => h.mem_visited hk (v + 1) (by omega) c
  have hle := foldl_last_le now max nowb (visited k (tick cc.lastscan) cc.wheel (v + 1)) s
    (by omega) (fun c hc => h.time_le_latest c ((hmem c).mp hc).1)
  have hlat := h.time_le_latest e he
  have hnn := h.nonneg e he
  rcases foldl_stop now max nowb (visited k (tick cc.lastscan) cc.wheel (v + 1)) s with
    hgo | ⟨-, l₁, b, l₂, hsplit, hb, hbmax, hafter⟩
  · -- The scan went all the way, so the callout is past the look-ahead.
    have hl : l = hi := by
      rw [hgo, hs] at hlastb
      omega
    have hfar : offset k cc e ≤ tick e.time - tick cc.lastscan := Nat.mod_le _ _
    have htime : ((tick e.time : Nat) : Int) * 2 ^ 24 ≤ e.time := by
      unfold tick
      omega
    omega
  -- It was cut short, and the callout would have to run before `a`.
  by_contra hlt
  rcases foldl_last_eq now max nowb l₁ s with heq | ⟨a, ha, halater, heq⟩
  · omega
  have hmema : a ∈ visited k (tick cc.lastscan) cc.wheel (v + 1) := by
    rw [hsplit]
    exact List.mem_append_left _ ha
  have hmemb : b ∈ visited k (tick cc.lastscan) cc.wheel (v + 1) := by
    rw [hsplit]
    exact List.mem_append_cons_self
  have hsorted := h.visited_sorted hk (v + 1) (by omega)
  rw [hsplit] at hsorted
  have hab := (List.pairwise_append.mp hsorted).2.2 a ha b List.mem_cons_self
  have hfinal := hle.2 a hmema halater
  have hbnear : tick b.time < tick now + aheadTicks (gap cc.lastscan now) := by
    unfold tick at hmax ⊢
    omega
  have hord := hsafe.ordered a b e ((hmem a).mp hmema).1 ((hmem b).mp hmemb).1 he halater
    (by omega) hbnear hab (by have := ((hmem b).mp hmemb).2; omega) (by omega)
  omega

/-- A safe scan hands on exactly the due callouts, each once, keeps the rest,
    and reports a time that is early enough for them. -/
theorem calloutProcess_spec (h : WheelOk k cc) (hk : k ≤ 31) (hnow : cc.lastscan ≤ now)
    (hmax : now ≤ sbtMax) (hsafe : Safe k cc now) :
    ∃ cc' moved, calloutProcess k cc now = some cc' ∧ cc'.expireq = cc.expireq ++ moved ∧
      (moved.map Entry.id).Nodup ∧ (∀ c, c ∈ moved ↔ Pending cc c ∧ c.time ≤ now) ∧
      (∀ c, Pending cc' c ↔ Pending cc c ∧ now < c.time) ∧ WheelOk k cc' := by
  rcases window_eq k cc.lastscan now hk h.scanned.1 hnow hsafe.fits with
    ⟨hfirstb, hnowb, hlastb, hlast⟩
  have h0 := h.scanned.1
  have hpos := aheadTicks_pos (gap cc.lastscan now)
  have hend := windowEnd_le now (aheadTicks (gap cc.lastscan now)) (by omega)
  rw [← hlast] at hend
  generalize hlo : min (gap cc.lastscan now) (2 ^ k - 1) = lo at hnowb
  generalize hhi : min (gap cc.lastscan now + aheadTicks (gap cc.lastscan now) - 1) (2 ^ k - 1) = hi
    at hlastb
  have hkpos : 0 < 2 ^ k := Nat.pow_pos (by decide)
  generalize hw : window k cc.lastscan now = w at *
  rcases scanLoop_run k (tick cc.lastscan) lo hi now w.last cc.wheel
    ⟨cc.expireq, w.first, w.last, w.lastb⟩ hk (by omega) (by omega) (by omega) hlastb (2 ^ k) 0
    (by omega) (by omega) with ⟨v, l, hlv, hvh, hlol, hrun, hstop⟩
  have hstart : wheelAfter k (tick cc.lastscan) now cc.wheel 0 = cc.wheel := by
    ext1 b
    exact if_neg (fun ⟨i, hi, _⟩ => absurd hi (Nat.not_lt_zero i))
  rw [hstart, Nat.add_zero, ← hfirstb, ← hnowb] at hrun
  rw [← hnowb] at hstop
  have hmem := fun c => h.mem_visited hk (v + 1) (by omega) c
  have htick : tick now = tick cc.lastscan + gap cc.lastscan now := by
    have := tick_mono _ _ hnow
    unfold gap
    omega
  have hdue : ∀ c, Pending cc c → c.time ≤ now → offset k cc c ≤ v := by
    intro c hc hle
    have h1 := tick_mono _ _ hle
    have h2 : offset k cc c ≤ tick c.time - tick cc.lastscan := Nat.mod_le _ _
    have h3 := offset_lt k cc c
    omega
  have hpend : ∀ b c, c ∈ wheelAfter k (tick cc.lastscan) now cc.wheel (v + 1) b ↔
      c ∈ cc.wheel b ∧ now < c.time := h.mem_wheelAfter hk v hdue
  have hlater : ∀ c, (∃ b, c ∈ wheelAfter k (tick cc.lastscan) now cc.wheel (v + 1) b) ↔
      Pending cc c ∧ now < c.time := by
    intro c
    constructor
    · rintro ⟨b, hc⟩
      exact ⟨⟨b, ((hpend b c).mp hc).1⟩, ((hpend b c).mp hc).2⟩
    · rintro ⟨⟨b, hc⟩, hlt⟩
      exact ⟨b, (hpend b c).mpr ⟨hc, hlt⟩⟩
  generalize hfin : (visited k (tick cc.lastscan) cc.wheel (v + 1)).foldl
    (look now w.last w.nowb) ⟨cc.expireq, w.first, w.last, w.lastb⟩ = fin at hrun hstop
  have hproc : calloutProcess k cc now = some
      { wheel := wheelAfter k (tick cc.lastscan) now cc.wheel (v + 1), expireq := fin.expireq
        firstevent := fin.last, lastscan := now, newCallout := some (fin.last, fin.first) } := by
    rw [calloutProcess, hw]
    exact congrArg (Option.map _) hrun
  refine ⟨_, (visited k (tick cc.lastscan) cc.wheel (v + 1)).filter (fun c => c.time ≤ now),
    hproc, by rw [← hfin]; exact foldl_expireq _ _ _ _ _, ?_, fun c => ?_,
    hlater, ⟨⟨by dsimp only; omega, hmax⟩, fun b c hc => h.home b c ((hpend b c).mp hc).1,
      fun c hc => ?_, fun b => ?_, fun c d hc hd hid => ?_, fun c hc => ?_⟩⟩
  · refine List.Nodup.map_on (fun c hc d hd hid => ?_)
      (List.Nodup.filter _ (h.visited_nodup hk (v + 1) (by omega)))
    exact h.single c d ((hmem c).mp (List.mem_of_mem_filter hc)).1
      ((hmem d).mp (List.mem_of_mem_filter hd)).1 hid
  · rw [List.mem_filter, hmem, decide_eq_true_eq]
    constructor
    · exact fun hc => ⟨hc.1.1, hc.2⟩
    · exact fun hc => ⟨⟨hc.1, Nat.lt_succ_of_le (hdue c hc.1 hc.2)⟩, hc.2⟩
  · rcases (hlater c).mp hc with ⟨hc', hlt⟩
    exact ⟨by dsimp only; omega, (h.range c hc').2⟩
  · dsimp only [wheelAfter]
    split
    · exact List.Nodup.filter _ (h.nodup b)
    · exact h.nodup b
  · exact h.single c d ((hlater c).mp hc).1 ((hlater d).mp hd).1 hid
  rcases (hlater c).mp hc with ⟨hc', hlt⟩
  dsimp only
  rw [← hfin] at hstop ⊢
  by_cases hv : offset k cc c ≤ v
  · refine (foldl_last_le now w.last w.nowb _ _ (Int.le_refl _)
      (fun d hd => h.time_le_latest d ((hmem d).mp hd).1)).2 c ?_ hlt
    exact (hmem c).mpr ⟨hc', Nat.lt_succ_of_le hv⟩
  · exact h.unvisited hk hnow hsafe w.last w.nowb lo hi v l _ hend hlo.symm hhi.symm hlastb rfl
      hlv hvh hlol hstop c hc' (Nat.lt_of_not_le hv)

end FreeBSDKern.Callout
