import FreeBSDKern.Callout.Window

/-!
# What a Scan Does

A scan is a fold over the callouts of the slots it visits, in the order it
visits them. Three facts about that fold are all that the rest needs: the due
callouts are appended to the queue, the time reported is no later than the
latest time of any callout visited, and the scan is only cut short by a callout
that starts after another one must have run.

## Main definitions

* `visited`: The callouts of the first slots of a scan.
* `wheelAfter`: The wheel after the first slots of a scan.

## Theorems

* `foldl_expireq`, `foldl_last_le`, `foldl_stop`: The three facts.
* `scanLoop_run`: Which slots the outer loop visits.
-/

namespace FreeBSDKern.Callout

open Function

section Fold

variable (now max : Int) (nowb : Nat)

/-- The inner loop is a fold, and it keeps what is not due. -/
theorem scanBucket_eq (l : List Entry) (s : Scan) : scanBucket now max nowb l s =
      (l.filter (fun c => now < c.time), l.foldl (look now max nowb) s) := by
  induction l generalizing s with
  | nil => rfl
  | cons c l ih =>
    rw [scanBucket, ih, List.foldl_cons, List.filter_cons]
    dsimp only
    by_cases hdue : c.time ≤ now
    · rw [if_pos hdue, if_neg (by rw [decide_eq_true_eq]; omega)]
    · rw [if_neg hdue, if_pos (by rw [decide_eq_true_eq]; omega)]

theorem look_expireq (s : Scan) (c : Entry) :
    (look now max nowb s c).expireq = s.expireq ++ [c].filter (fun c => c.time ≤ now) := by
  unfold look
  by_cases hdue : c.time ≤ now
  · rw [if_pos hdue, List.filter_cons, if_pos (decide_eq_true hdue)]
    rfl
  rw [if_neg hdue, List.filter_cons, if_neg (by rw [decide_eq_true_eq]; exact hdue),
    List.filter_nil, List.append_nil]
  unfold peek
  split
  · rfl
  · split
    all_goals rfl

theorem foldl_expireq (l : List Entry) (s : Scan) :
    (l.foldl (look now max nowb) s).expireq = s.expireq ++ l.filter (fun c => c.time ≤ now) := by
  induction l generalizing s with
  | nil => exact (List.append_nil _).symm
  | cons c l ih =>
    rw [List.foldl_cons, ih, look_expireq, List.append_assoc, ← List.filter_append]
    rfl

/-- One callout never raises the time reported, and a callout that is not due
    bounds it. -/
theorem look_last (s : Scan) (c : Entry) (hmax : s.last ≤ max) (hc : c.time ≤ c.latest) :
    (look now max nowb s c).last ≤ s.last ∧
      (now < c.time → (look now max nowb s c).last ≤ c.latest) := by
  unfold look
  by_cases hdue : c.time ≤ now
  · rw [if_pos hdue]
    exact ⟨Int.le_refl _, fun h => by omega⟩
  rw [if_neg hdue, peek]
  split
  case isTrue hfar => exact ⟨Int.le_refl _, fun _ => by omega⟩
  case isFalse hnear =>
  split
  case isTrue hstop => exact ⟨Int.le_refl _, fun _ => by dsimp only; omega⟩
  case isFalse hgroup =>
  dsimp only
  split
  · exact ⟨by omega, fun _ => Int.le_refl _⟩
  · exact ⟨Int.le_refl _, fun _ => by omega⟩

theorem foldl_last_le (l : List Entry) : ∀ s : Scan, s.last ≤ max → (∀ c ∈ l, c.time ≤ c.latest) →
    (l.foldl (look now max nowb) s).last ≤ s.last ∧
      ∀ c ∈ l, now < c.time → (l.foldl (look now max nowb) s).last ≤ c.latest := by
  induction l with
  | nil => exact fun s _ _ => ⟨Int.le_refl _, nofun⟩
  | cons c l ih =>
    intro s hmax hl
    have hhead := look_last now max nowb s c hmax (hl c List.mem_cons_self)
    have htail := ih (look now max nowb s c) (by omega)
      (fun d hd => hl d (List.mem_cons_of_mem c hd))
    rw [List.foldl_cons]
    refine ⟨by omega, fun d hd hlater => ?_⟩
    rcases List.mem_cons.mp hd with rfl | hmem
    · have := hhead.2 hlater
      omega
    · exact htail.2 d hmem hlater

/-- A time lowered in one step is the latest time of the callout looked at. -/
theorem look_last_eq (s : Scan) (c : Entry) : (look now max nowb s c).last = s.last ∨
      (now < c.time ∧ (look now max nowb s c).last = c.latest) := by
  unfold look
  by_cases hdue : c.time ≤ now
  · rw [if_pos hdue]
    exact .inl rfl
  rw [if_neg hdue, peek]
  split
  case isTrue => exact .inl rfl
  case isFalse =>
  split
  case isTrue => exact .inl rfl
  case isFalse =>
  dsimp only
  split
  · exact .inr ⟨by omega, rfl⟩
  · exact .inl rfl

theorem foldl_last_eq (l : List Entry) (s : Scan) : (l.foldl (look now max nowb) s).last = s.last ∨
      ∃ a ∈ l, now < a.time ∧ (l.foldl (look now max nowb) s).last = a.latest := by
  induction l using List.reverseRecOn with
  | nil => exact .inl rfl
  | append_singleton l c ih =>
    rw [List.foldl_append]
    rcases look_last_eq now max nowb (l.foldl (look now max nowb) s) c with hsame | ⟨hlater, heq⟩
    · rcases ih with hs | ⟨a, ha, hlater, heq⟩
      · exact .inl (hsame.trans hs)
      · exact .inr ⟨a, List.mem_append_left _ ha, hlater, hsame.trans heq⟩
    · exact .inr ⟨c, by simp, hlater, heq⟩

theorem look_lastb (s : Scan) (c : Entry) : (look now max nowb s c).lastb = s.lastb ∨
      ((look now max nowb s c).lastb = nowb ∧ now < c.time ∧ c.time < max ∧ s.last < c.time) := by
  unfold look
  by_cases hdue : c.time ≤ now
  · rw [if_pos hdue]
    exact .inl rfl
  rw [if_neg hdue, peek]
  split
  case isTrue => exact .inl rfl
  case isFalse =>
    split
    case isTrue => exact .inr ⟨rfl, by omega, by omega, by omega⟩
    case isFalse => exact .inl rfl

/-- A scan is cut short only by a callout that starts after the time reported
    up to then. -/
theorem foldl_stop (l : List Entry) (s : Scan) : (l.foldl (look now max nowb) s).lastb = s.lastb ∨
      ((l.foldl (look now max nowb) s).lastb = nowb ∧
        ∃ l₁ b l₂, l = l₁ ++ b :: l₂ ∧ now < b.time ∧ b.time < max ∧
          (l₁.foldl (look now max nowb) s).last < b.time) := by
  induction l using List.reverseRecOn with
  | nil => exact .inl rfl
  | append_singleton l c ih =>
    rw [List.foldl_append]
    rcases look_lastb now max nowb (l.foldl (look now max nowb) s) c with
      hsame | ⟨hstop, hlater, hnear, hafter⟩
    · rcases ih with hs | ⟨hs, l₁, b, l₂, rfl, hb⟩
      · exact .inl (hsame.trans hs)
      · exact .inr ⟨hsame.trans hs, l₁, b, l₂ ++ [c], by simp, hb⟩
    · exact .inr ⟨hstop, l, c, [], rfl, hlater, hnear, hafter⟩

end Fold

/-- The callouts of the first `j` slots of a scan that starts at tick `f`. -/
def visited (k f : Nat) (wheel : Nat → List Entry) (j : Nat) : List Entry :=
  (List.range j).flatMap (fun i => wheel ((f + i) % 2 ^ k))

/-- The wheel after those slots have been scanned. -/
def wheelAfter (k f : Nat) (now : Int) (wheel : Nat → List Entry) (j b : Nat) : List Entry :=
  if ∃ i, i < j ∧ (f + i) % 2 ^ k = b then (wheel b).filter (fun c => now < c.time) else wheel b

theorem visited_succ (k f : Nat) (wheel : Nat → List Entry) (j : Nat) :
    visited k f wheel (j + 1) = visited k f wheel j ++ wheel ((f + j) % 2 ^ k) := by
  rw [visited, List.range_succ, List.flatMap_append, List.flatMap_singleton, visited]

/-- Two slots of one round are different. -/
theorem slot_ne (S f i j : Nat) (hij : i < j) (hj : j < i + S) : (f + i) % S ≠ (f + j) % S := by
  intro heq
  have hdvd : S ∣ (f + j) - (f + i) :=
    Nat.dvd_of_mod_eq_zero (Nat.sub_mod_eq_zero_of_mod_eq heq.symm)
  have := Nat.le_of_dvd (by omega) hdvd
  omega

theorem wheelAfter_here (k f : Nat) (now : Int) (wheel : Nat → List Entry) (j : Nat)
    (hj : j < 2 ^ k) : wheelAfter k f now wheel j ((f + j) % 2 ^ k) = wheel ((f + j) % 2 ^ k) := by
  rw [wheelAfter, if_neg]
  rintro ⟨i, hi, heq⟩
  exact slot_ne (2 ^ k) f i j hi (by omega) heq

theorem wheelAfter_succ (k f : Nat) (now : Int) (wheel : Nat → List Entry) (j : Nat) :
    update (wheelAfter k f now wheel j) ((f + j) % 2 ^ k)
      ((wheel ((f + j) % 2 ^ k)).filter (fun c => now < c.time)) =
      wheelAfter k f now wheel (j + 1) := by
  ext1 b
  by_cases hb : b = (f + j) % 2 ^ k
  · subst hb
    rw [update_self, wheelAfter, if_pos ⟨j, by omega, rfl⟩]
  rw [update_of_ne hb, wheelAfter, wheelAfter]
  have hiff : (∃ i, i < j ∧ (f + i) % 2 ^ k = b) ↔ ∃ i, i < j + 1 ∧ (f + i) % 2 ^ k = b := by
    constructor
    · rintro ⟨i, hi, heq⟩
      exact ⟨i, by omega, heq⟩
    rintro ⟨i, hi, heq⟩
    refine ⟨i, ?_, heq⟩
    by_contra hge
    exact hb (by rw [← heq, show i = j by omega])
  simp only [hiff]

/-- The slots the outer loop visits: at least up to `lo`, and up to `hi` unless
    it is cut short. The test is made after each slot. -/
theorem scanLoop_run (k f lo hi : Nat) (now max : Int) (wheel : Nat → List Entry) (s : Scan)
    (hk : k ≤ 31) (hhi : hi < 2 ^ k) (hlo : lo ≤ hi) (hnear : hi ≤ lo + 127)
    (hs : s.lastb = (f + hi) % 2 ^ 32) (n : Nat) : ∀ j, j ≤ hi → hi < j + n →
      ∃ v l, l ≤ v ∧ v ≤ hi ∧ lo ≤ l ∧
        scanLoop k now max ((f + lo) % 2 ^ 32) n ((f + j) % 2 ^ 32) (wheelAfter k f now wheel j)
          ((visited k f wheel j).foldl (look now max ((f + lo) % 2 ^ 32)) s) =
          some (wheelAfter k f now wheel (v + 1),
            (visited k f wheel (v + 1)).foldl (look now max ((f + lo) % 2 ^ 32)) s) ∧
        ((visited k f wheel (v + 1)).foldl (look now max ((f + lo) % 2 ^ 32)) s).lastb =
          (f + l) % 2 ^ 32 := by
  have hsize : 2 ^ k ≤ 2 ^ 31 := Nat.pow_le_pow_right (by decide) hk
  induction n with
  | zero => exact fun j hj hn => by omega
  | succ n ih =>
    intro j hj hn
    rw [scanLoop, slot_mod k _ hk, wheelAfter_here k f now wheel j (by omega), scanBucket_eq]
    dsimp only
    rw [wheelAfter_succ, ← List.foldl_append, ← visited_succ, uadd_mod]
    -- The bound is still the one set out with, or has been drawn in to `lo`.
    have hbound : ∃ l, lo ≤ l ∧ (l = hi ∨ l = lo) ∧
        ((visited k f wheel (j + 1)).foldl (look now max ((f + lo) % 2 ^ 32)) s).lastb =
          (f + l) % 2 ^ 32 := by
      rcases foldl_stop now max ((f + lo) % 2 ^ 32) (visited k f wheel (j + 1)) s with h | ⟨h, -⟩
      · exact ⟨hi, hlo, .inl rfl, h.trans hs⟩
      · exact ⟨lo, Nat.le_refl lo, .inr rfl, h⟩
    rcases hbound with ⟨l, hle, hcase, hlastb⟩
    rw [hlastb, keepsGoing f (j + 1) l (by omega) (by omega)]
    by_cases hgo : j + 1 ≤ l
    · rw [if_pos (decide_eq_true hgo)]
      rcases ih (j + 1) (by omega) (by omega) with ⟨v, l', hv⟩
      exact ⟨v, l', hv⟩
    · rw [if_neg (by rw [decide_eq_true_eq]; exact hgo)]
      exact ⟨j, l, by omega, hj, hle, rfl, hlastb⟩

end FreeBSDKern.Callout
