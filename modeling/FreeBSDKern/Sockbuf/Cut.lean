import FreeBSDKern.Sockbuf.Append

/-!
# Cutting a Socket Buffer

`sbcut_internal` takes mbufs off the front until enough bytes are gone, from one record
into the next if need be, and may stop inside a mbuf; then it drops the mbufs without
data that are in front of the record it stopped in. `Cutting` describes the queue in
between: the mbufs left of the current record, and the records behind it. Every step
keeps it and takes as many bytes off what the records hold as it takes off the count,
so that the whole cuts them as `cutRecords` says.

`sbflush_internal` cuts again and again. A round cuts all bytes that are counted, and
with them at least one record, so that it comes to its end, provided that the count fits
an `int`.

## Main definitions

* `cutRecords`: Bytes are taken off the front, and empty records with them.
* `Cutting`: The queue while it is being cut.

## Theorems

* `sbcut_spec`, `sbdroprecord_spec`, `sbflush_spec`: The operations.
-/

namespace FreeBSDKern.Sockbuf

open Lib Function

variable {sb : Sb} {recs rs : List (List Nat)} {cur : List Nat} {m next : Option Nat}

/-- The number of bytes of a record. -/
def size : Record → Nat
  | [] => 0
  | .byte _ _ :: r => size r + 1
  | .eor :: r => size r

/-- A record without its first bytes, and without the marks in front of what is left. -/
def dropBytes : Nat → Record → Record
  | _, [] => []
  | n, .eor :: r => dropBytes n r
  | 0, .byte t b :: r => .byte t b :: r
  | n + 1, .byte _ _ :: r => dropBytes n r

/-- Bytes are taken off the front. A record that has none left goes as well. -/
def cutRecords (n : Nat) : List Record → List Record
  | [] => []
  | r :: rs =>
    if n < size r then dropBytes n r :: rs
    else if n = size r then rs
    else cutRecords (n - size r) rs

theorem size_bytes (type : Nat) (d : List (BitVec 8)) (X : Record) :
    size (d.map (Item.byte type) ++ X) = d.length + size X := by
  induction d with
  | nil => exact (Nat.zero_add _).symm
  | cons b d ih =>
    rw [List.map_cons, List.cons_append, size, ih, List.length_cons]
    omega

@[simp] theorem size_mark (b : Bool) (X : Record) : size (mark b ++ X) = size X := by
  cases b with
  | false => rfl
  | true => rfl

theorem dropBytes_bytes (type : Nat) (d : List (BitVec 8)) (X : Record) (k : Nat) :
    dropBytes (d.length + k) (d.map (Item.byte type) ++ X) = dropBytes k X := by
  induction d with
  | nil => rw [List.length_nil, Nat.zero_add]; rfl
  | cons b d ih =>
    rw [List.length_cons, show d.length + 1 + k = (d.length + k) + 1 by omega, List.map_cons,
      List.cons_append, dropBytes, ih]

theorem dropBytes_part (type : Nat) (X : Record) : ∀ (d : List (BitVec 8)) (k : Nat), k < d.length →
      dropBytes k (d.map (Item.byte type) ++ X) = (d.drop k).map (Item.byte type) ++ X := by
  intro d
  induction d with
  | nil => intro k hk; exact absurd hk (Nat.not_lt_zero k)
  | cons b d ih =>
    intro k hk
    cases k with
    | zero => rfl
    | succ k => exact ih k (Nat.lt_of_succ_lt_succ hk)

@[simp] theorem dropBytes_mark (b : Bool) (X : Record) (k : Nat) :
    dropBytes k (mark b ++ X) = dropBytes k X := by
  cases b with
  | false => rfl
  | true =>
    cases k with
    | zero => rfl
    | succ k => rfl

theorem size_items (m : Mbuf) (X : Record) : size (m.items ++ X) = m.data.length + size X := by
  rw [Mbuf.items, List.append_assoc, Mbuf.bytes, size_bytes, size_mark]

/-- A mbuf goes, and its bytes with it. -/
theorem cutRecords_items (m : Mbuf) (X : Record) (rs : List Record) (k : Nat) :
    cutRecords (m.data.length + k) ((m.items ++ X) :: rs) = cutRecords k (X :: rs) := by
  have hdrop : dropBytes (m.data.length + k) (m.items ++ X) = dropBytes k X := by
    rw [Mbuf.items, List.append_assoc, Mbuf.bytes, dropBytes_bytes, dropBytes_mark]
  rw [cutRecords, cutRecords, hdrop, size_items]
  by_cases hlt : k < size X
  · rw [if_pos hlt, if_pos (by omega)]
  rw [if_neg hlt, if_neg (by omega)]
  by_cases heq : k = size X
  · rw [if_pos heq, if_pos (by omega)]
  · rw [if_neg heq, if_neg (by omega), Nat.add_sub_add_left]

/-- Nothing of a record is left, and there is more to cut. -/
theorem cutRecords_done (rs : List Record) {n : Nat} (hn : 0 < n) :
    cutRecords n ([] :: rs) = cutRecords n rs := by
  have hsize : size [] = 0 := rfl
  rw [cutRecords, hsize, if_neg (Nat.not_lt_zero n), if_neg (Nat.ne_of_gt hn), Nat.sub_zero]

/-- A record that begins with a byte stays. -/
theorem cutRecords_zero {m : Mbuf} (hm : m.data ≠ []) (X : Record) (rs : List Record) :
    cutRecords 0 ((m.items ++ X) :: rs) = (m.items ++ X) :: rs := by
  have hpos := List.length_pos_iff.mpr hm
  rw [cutRecords, size_items, if_pos (by omega), Mbuf.items, List.append_assoc, Mbuf.bytes,
    dropBytes_part _ _ _ 0 hpos]
  rfl

/-- Cutting inside a mbuf. -/
theorem cutRecords_part (m : Mbuf) (X : Record) (rs : List Record) {k : Nat}
    (hk : k < m.data.length) : cutRecords k ((m.items ++ X) :: rs) =
      cutRecords 0 ((Mbuf.items { m with data := m.data.drop k } ++ X) :: rs) := by
  have hne : ({ m with data := m.data.drop k } : Mbuf).data ≠ [] := by
    intro hnil
    have := congrArg List.length hnil
    rw [List.length_drop, List.length_nil] at this
    omega
  rw [cutRecords_zero hne, cutRecords, size_items, if_pos (by omega), Mbuf.items, List.append_assoc,
    Mbuf.bytes, dropBytes_part _ _ _ k hk]
  simp [Mbuf.items, Mbuf.bytes]

theorem size_eq_total (mbufs : Nat → Mbuf) (l : List Nat) :
    size (items mbufs l) = total mbufs l .ccc := by
  induction l with
  | nil => rfl
  | cons i l ih =>
    rw [items_cons, size_items, ih, total_cons]
    rfl

theorem cutRecords_length : ∀ (rs : List Record) (n : Nat), (cutRecords n rs).length ≤ rs.length := by
  intro rs
  induction rs with
  | nil => intro n; exact Nat.le_refl 0
  | cons r rs ih =>
    intro n
    rw [cutRecords]
    split
    case isTrue => exact le_rfl
    case isFalse =>
      split
      case isTrue => exact Nat.le_succ _
      case isFalse => exact (ih _).trans (Nat.le_succ _)

/-- A whole record goes at least. -/
theorem cutRecords_length_lt {r : Record} (rs : List Record) {n : Nat} (h : size r ≤ n) :
    (cutRecords n (r :: rs)).length ≤ rs.length := by
  rw [cutRecords, if_neg (Nat.not_lt.mpr h)]
  split
  case isTrue => exact le_rfl
  case isFalse => exact cutRecords_length rs _

/-- The queue while it is being cut: `cur` is left of the current record, from `m` on,
    and `rs` are the records behind it, from `next` on. -/
structure Cutting (sb : Sb) (m next : Option Nat) (cur : List Nat) (rs : List (List Nat)) : Prop where
  nodup : (cur ++ rs.flatten).Nodup
  below : ∀ i ∈ cur ++ rs.flatten, i < sb.fresh
  nonempty : ∀ r ∈ rs, r ≠ []
  current : Linked some sb.next m cur none
  linked : ∀ r ∈ rs, Linked some sb.next r.head? r none
  pkts : Linked some sb.nextpkt next (rs.filterMap List.head?) none
  counts : ∀ c, sb.counts c = BitVec.ofNat 32 (total sb.mbufs (cur ++ rs.flatten) c)
  tail : cur ++ rs.flatten ≠ [] → sb.mbtail = (cur ++ rs.flatten).getLast?
  last : rs ≠ [] → sb.lastrecord = rs.getLast?.bind List.head?

/-- The next record becomes the current one. -/
theorem Cutting.switch {r : List Nat} (h : Cutting sb m next [] (r :: rs)) :
    ∃ i, next = some i ∧ r.head? = some i ∧ Cutting sb (some i) (sb.nextpkt i) r rs := by
  cases r with
  | nil => exact absurd rfl (h.nonempty [] List.mem_cons_self)
  | cons i r =>
    refine ⟨i, h.pkts.1, rfl, h.nodup, h.below, fun r' hr' => h.nonempty r' (List.mem_cons_of_mem _ hr'),
      h.linked _ List.mem_cons_self, fun r' hr' => h.linked r' (List.mem_cons_of_mem _ hr'),
      h.pkts.2, h.counts, h.tail, fun hne => ?_⟩
    rw [h.last (List.cons_ne_nil _ _)]
    cases rs with
    | nil => exact absurd rfl hne
    | cons r' rs => rfl

/-- The queue before it is cut. -/
theorem Queue.cutting (h : Queue sb recs) :
    ∃ cur rs, Cutting sb sb.mb (sb.mb.bind sb.nextpkt) cur rs ∧
      (recs = cur :: rs ∨ recs = [] ∧ cur = [] ∧ rs = []) := by
  have hall : Cutting sb none sb.mb [] recs :=
    ⟨h.nodup, h.below, h.nonempty, rfl, h.linked, h.pkts, h.counts, fun _ => h.tail, fun _ => h.last⟩
  cases recs with
  | nil =>
    have hmb : sb.mb = none := h.pkts
    rw [hmb] at hall ⊢
    exact ⟨[], [], hall, .inr ⟨rfl, rfl, rfl⟩⟩
  | cons r rs =>
    rcases hall.switch with ⟨i, hi, -, hc⟩
    rw [hi]
    exact ⟨r, rs, hc, .inl rfl⟩

theorem Cutting.free {i : Nat} (h : Cutting sb m next (i :: cur) rs) :
    m = some i ∧ Cutting (sbfree sb (sb.mbufs i)) (sb.next i) next cur rs := by
  have hnodup := List.nodup_cons.mp h.nodup
  refine ⟨h.current.1, hnodup.2, fun j hj => h.below j (List.mem_cons_of_mem i hj), h.nonempty,
    h.current.2, h.linked, h.pkts, fun c => ?_, fun hne => ?_, h.last⟩
  · show sb.counts c - _ = _
    rw [h.counts c, List.cons_append, total_cons, BitVec.ofNat_add]
    exact add_sub_cancel_left _ _
  show sb.mbtail = _
  rw [h.tail (List.cons_ne_nil _ _), List.cons_append, List.getLast?_cons]
  cases hl : (cur ++ rs.flatten).getLast? with
  | none => exact absurd (List.getLast?_eq_none_iff.mp hl) hne
  | some z => rfl

theorem dataWeight_part (type : Nat) {a b : Nat} (h : b ≤ a) (c : Counter) :
    dataWeight type (a - b) c + dataWeight type b c = dataWeight type a c := by
  rw [← dataWeight_add, Nat.sub_add_cancel h]

/-- Cutting into the first mbuf. -/
theorem Cutting.part {i k : Nat} (h : Cutting sb m next (i :: cur) rs)
    (hk : k ≤ (sb.mbufs i).data.length) : Cutting (cutPart sb i k) m next (i :: cur) rs := by
  have hout : i ∉ cur ++ rs.flatten := (List.nodup_cons.mp h.nodup).1
  refine ⟨h.nodup, h.below, h.nonempty, h.current, h.linked, h.pkts, fun c => ?_, h.tail, h.last⟩
  have hrest := total_congr (update_outside sb.mbufs hout
    { sb.mbufs i with data := (sb.mbufs i).data.drop k }) c
  dsimp only [cutPart] at hrest ⊢
  rw [h.counts c, List.cons_append, total_cons, total_cons, hrest, update_self,
    BitVec.ofNat_add, BitVec.ofNat_add]
  have hw : (sb.mbufs i).weight c =
      Mbuf.weight { sb.mbufs i with data := (sb.mbufs i).data.drop k } c +
        dataWeight (sb.mbufs i).type k c := by
    rw [Mbuf.weight, Mbuf.weight, ← dataWeight_part _ hk]
    dsimp only
    rw [List.length_drop]
    omega
  rw [hw, BitVec.ofNat_add, add_right_comm]
  exact add_sub_cancel_right _ _

/-- The end of the cut: the front is set, and with it what has to be. -/
theorem Cutting.queue (h : Cutting sb m next cur rs) :
    Queue (newFront sb m next) (if cur = [] then rs else cur :: rs) ∧
      (newFront sb m next).mbufs = sb.mbufs ∧ (newFront sb m next).fresh = sb.fresh := by
  cases cur with
  | nil =>
    have hm : m = none := h.current
    subst hm
    rw [if_pos rfl]
    unfold newFront
    dsimp only
    cases rs with
    | nil =>
      have hn : next = none := h.pkts
      subst hn
      exact ⟨⟨⟨h.nodup, h.below, h.nonempty, h.linked, rfl, rfl, h.counts⟩, rfl⟩, rfl, rfl⟩
    | cons r rs =>
      rcases h.switch with ⟨i, hi, hhead, hc⟩
      subst hi
      have hq : Queue { sb with mb := some i } (r :: rs) := by
        refine ⟨⟨h.nodup, h.below, h.nonempty, h.linked, h.pkts, h.tail ?_, h.counts⟩,
          h.last (List.cons_ne_nil _ _)⟩
        rw [List.nil_append, List.flatten_cons]
        intro hnil
        rw [(List.append_eq_nil_iff.mp hnil).1] at hhead
        cases hhead
      dsimp only
      split
      case isTrue hnone =>
        refine ⟨⟨⟨hq.nodup, hq.below, hq.nonempty, hq.linked, hq.pkts, hq.tail, hq.counts⟩, ?_⟩,
          rfl, rfl⟩
        -- The record in front is the last one.
        have hrs : rs = [] := by
          cases rs with
          | nil => rfl
          | cons r' rs' =>
            rcases r' with _ | ⟨j, r'⟩
            · exact absurd rfl (hc.nonempty [] List.mem_cons_self)
            have := hc.pkts.1
            rw [hnone] at this
            cases this
        rw [hrs]
        exact hhead.symm
      case isFalse => exact ⟨hq, rfl, rfl⟩
  | cons i cur =>
    have hm : m = some i := h.current.1
    subst hm
    rw [if_neg (List.cons_ne_nil _ _)]
    have hnodup := List.nodup_cons.mp h.nodup
    have hi : i ∉ rs.filterMap List.head? := fun hin =>
      hnodup.1 (List.mem_append_right _ (mem_heads hin))
    have hchains : Chains { sb with mb := some i, nextpkt := update sb.nextpkt i next }
        ((i :: cur) :: rs) := by
      refine ⟨h.nodup, h.below, ?_, ?_, ?_, h.tail (List.cons_ne_nil _ _), h.counts⟩
      · intro r hr
        rcases List.mem_cons.mp hr with hr | hr
        · rw [hr]
          exact List.cons_ne_nil _ _
        · exact h.nonempty r hr
      · intro r hr
        rcases List.mem_cons.mp hr with hr | hr
        · rw [hr]
          exact h.current
        · exact h.linked r hr
      · exact h.pkts.push hi
    have hself : update sb.nextpkt i next i = next := update_self ..
    unfold newFront
    dsimp only
    by_cases hnone : next = none
    · rw [if_pos (hself.trans hnone)]
      subst hnone
      refine ⟨⟨hchains.setLast _, ?_⟩, rfl, rfl⟩
      have hrs : rs = [] := by
        cases rs with
        | nil => rfl
        | cons r rs =>
          rcases r with _ | ⟨j, r⟩
          · exact absurd rfl (h.nonempty [] List.mem_cons_self)
          · cases h.pkts.1
      rw [hrs]
      rfl
    rw [if_neg (fun he => hnone (hself.symm.trans he))]
    refine ⟨⟨hchains, ?_⟩, rfl, rfl⟩
    have hrs : rs ≠ [] := fun hnil => hnone (by
      rw [hnil] at h
      exact h.pkts)
    show sb.lastrecord = _
    rw [h.last hrs]
    cases rs with
    | nil => exact absurd rfl hrs
    | cons r rs => rfl

/-- What a loop of the cut does to the totals: they do not grow. -/
def Shrinks (mbufs mbufs' : Nat → Mbuf) (l l' : List Nat) : Prop :=
  ∀ c, total mbufs' l' c ≤ total mbufs l c

theorem cutLoop_spec :
    ∀ (fuel : Nat) (sb : Sb) (m next : Option Nat) (len : Int) (mfree : List Nat) (cur : List Nat)
      (rs : List (List Nat)), Cutting sb m next cur rs →
      len ≤ total sb.mbufs (cur ++ rs.flatten) .ccc → (cur ++ rs.flatten).length < fuel →
      ∃ r cur' rs', cutLoop fuel sb m next len mfree = some r ∧
        Cutting r.1 r.2.1 r.2.2.1 cur' rs' ∧ r.1.fresh = sb.fresh ∧
        cutRecords 0 (items r.1.mbufs cur' :: contents r.1.mbufs rs') =
          cutRecords len.toNat (items sb.mbufs cur :: contents sb.mbufs rs) ∧
        Shrinks sb.mbufs r.1.mbufs (cur ++ rs.flatten) (cur' ++ rs'.flatten) := by
  intro fuel
  induction fuel with
  | zero => intro sb m next len mfree cur rs _ _ hlen; exact absurd hlen (Nat.not_lt_zero _)
  | succ fuel ih =>
    intro sb m next len mfree cur rs h hle hfuel
    rw [cutLoop]
    by_cases hpos : 0 < len
    · rw [if_pos hpos]
      -- The current mbuf, which may be the first of the next record.
      have hcur : ∃ i cur₀ rs₀, m.or next = some i ∧
          Cutting sb (some i) (if m.isSome then next else sb.nextpkt i) (i :: cur₀) rs₀ ∧
          cur ++ rs.flatten = i :: cur₀ ++ rs₀.flatten ∧
          cutRecords len.toNat (items sb.mbufs cur :: contents sb.mbufs rs) =
            cutRecords len.toNat (items sb.mbufs (i :: cur₀) :: contents sb.mbufs rs₀) := by
        cases cur with
        | cons i cur₀ =>
          have hm : m = some i := h.current.1
          subst hm
          exact ⟨i, cur₀, rs, rfl, h, rfl, rfl⟩
        | nil =>
          have hm : m = none := h.current
          subst hm
          cases rs with
          | nil => exact absurd (Int.lt_of_lt_of_le hpos hle) (by simp)
          | cons r rs₀ =>
            rcases h.switch with ⟨i, hi, hhead, hc⟩
            subst hi
            cases r with
            | nil => cases hhead
            | cons i' cur₀ =>
              obtain rfl : i' = i := Option.some.inj hhead
              exact ⟨i', cur₀, rs₀, rfl, hc, rfl, cutRecords_done _ (by omega)⟩
      rcases hcur with ⟨i, cur₀, rs₀, hor, hc, hflat, hcut⟩
      rw [hor, hcut]
      rw [hflat] at hle hfuel ⊢
      dsimp only
      by_cases hpart : len < (sb.mbufs i).data.length
      · rw [if_pos hpart]
        have hk : len.toNat < (sb.mbufs i).data.length := by omega
        have hout : i ∉ cur₀ ++ rs₀.flatten := (List.nodup_cons.mp hc.nodup).1
        have hsame := update_outside sb.mbufs hout
          { sb.mbufs i with data := (sb.mbufs i).data.drop len.toNat }
        refine ⟨_, i :: cur₀, rs₀, rfl, hc.part hk.le, rfl, ?_, fun c => ?_⟩
        · show cutRecords 0 (items (update sb.mbufs i _) _ ::
            contents (update sb.mbufs i _) rs₀) = _
          rw [items_cons, items_cons, cutRecords_part _ _ _ hk, update_self,
            items_congr (fun j hj => hsame j (List.mem_append_left _ hj)),
            contents_congr (fun j hj => hsame j (List.mem_append_right _ hj))]
        show total (update sb.mbufs i _) _ c ≤ _
        dsimp only at hsame ⊢
        rw [List.cons_append, total_cons, total_cons, total_congr hsame, update_self]
        have := dataWeight_part (sb.mbufs i).type hk.le c
        simp only [Mbuf.weight, List.length_drop]
        omega
      rw [if_neg hpart]
      rcases ih (sbfree sb (sb.mbufs i)) (sb.next i) _ (len - (sb.mbufs i).data.length) (i :: mfree)
        cur₀ rs₀ hc.free.2 (by
          rw [List.cons_append, total_cons] at hle
          have hw : (sb.mbufs i).weight .ccc = (sb.mbufs i).data.length := rfl
          show _ ≤ ((total sb.mbufs _ .ccc : Nat) : Int)
          omega) (by
          rw [List.cons_append, List.length_cons] at hfuel
          omega) with ⟨r, cur', rs', hr, hc', hfr, hcut', hshrink⟩
      refine ⟨r, cur', rs', hr, hc', hfr, hcut'.trans ?_, fun c => (hshrink c).trans ?_⟩
      · rw [items_cons, show len.toNat = (sb.mbufs i).data.length +
          (len - (sb.mbufs i).data.length).toNat by omega, cutRecords_items]
        rfl
      · rw [List.cons_append, total_cons]
        exact Nat.le_add_left _ _
    · rw [if_neg hpos]
      refine ⟨_, cur, rs, rfl, h, rfl, ?_, fun c => le_rfl⟩
      rw [Int.toNat_of_nonpos (Int.not_lt.mp hpos)]

theorem dropEmpty_spec :
    ∀ (cur : List Nat) (fuel : Nat) (sb : Sb) (m : Option Nat) (mfree : List Nat),
      Cutting sb m next cur rs → cur.length ≤ fuel →
      ∃ r cur', dropEmpty fuel sb m mfree = some r ∧ Cutting r.1 r.2.1 next cur' rs ∧
        r.1.fresh = sb.fresh ∧ contents r.1.mbufs (if cur' = [] then rs else cur' :: rs) =
          cutRecords 0 (items sb.mbufs cur :: contents sb.mbufs rs) ∧
        Shrinks sb.mbufs r.1.mbufs (cur ++ rs.flatten) (cur' ++ rs.flatten) := by
  intro cur
  induction cur with
  | nil =>
    intro fuel sb m mfree h _
    have hm : m = none := h.current
    subst hm
    exact ⟨_, [], by rw [dropEmpty], h, rfl, rfl, fun c => le_rfl⟩
  | cons i cur ih =>
    intro fuel sb m mfree h hfuel
    obtain rfl : m = some i := h.current.1
    cases fuel with
    | zero => cases hfuel
    | succ fuel =>
      rw [dropEmpty]
      by_cases hempty : (sb.mbufs i).data = []
      · rw [if_pos hempty]
        rcases ih fuel _ _ (i :: mfree) h.free.2 (Nat.le_of_succ_le_succ hfuel) with
          ⟨r, cur', hr, hc, hfr, hcut, hshrink⟩
        refine ⟨r, cur', hr, hc, hfr, hcut.trans ?_, fun c => (hshrink c).trans ?_⟩
        · have := cutRecords_items (sb.mbufs i) (items sb.mbufs cur) (contents sb.mbufs rs) 0
          rw [hempty] at this
          exact this.symm
        · rw [List.cons_append, total_cons]
          exact Nat.le_add_left _ _
      rw [if_neg hempty]
      refine ⟨_, i :: cur, rfl, h, rfl, ?_, fun c => le_rfl⟩
      rw [if_neg (List.cons_ne_nil _ _), items_cons, cutRecords_zero hempty]
      rfl

/-- Cutting takes the bytes off the front. -/
theorem sbcut_spec (h : Queue sb recs) (len : Int) (hle : len ≤ total sb.mbufs recs.flatten .ccc) :
    ∃ r recs', sbcutInternal sb len = some r ∧ Queue r.1 recs' ∧ r.1.fresh = sb.fresh ∧
      contents r.1.mbufs recs' = cutRecords len.toNat (contents sb.mbufs recs) ∧
      Shrinks sb.mbufs r.1.mbufs recs.flatten recs'.flatten := by
  rcases h.cutting with ⟨cur, rs, hc, hrecs⟩
  have hflat : recs.flatten = cur ++ rs.flatten := by
    rcases hrecs with hrecs | ⟨hrecs, hcur, hrs⟩
    · rw [hrecs]
      rfl
    · rw [hrecs, hcur, hrs]
      rfl
  have hlen := h.length_le
  rw [hflat] at hle hlen
  rcases cutLoop_spec (sb.fresh + 1) sb _ _ len [] cur rs hc hle (Nat.lt_succ_of_le hlen) with
    ⟨r, cur', rs', hr, hc', hfr, hcut, hshrink⟩
  have hlen' : cur'.length ≤ sb.fresh := by
    have hsub : cur' ⊆ List.range sb.fresh := fun i hi =>
      List.mem_range.mpr (hfr ▸ hc'.below i (List.mem_append_left _ hi))
    have hle := ((List.nodup_append.mp hc'.nodup).1.subperm hsub).length_le
    rwa [List.length_range] at hle
  rcases dropEmpty_spec cur' sb.fresh r.1 r.2.1 r.2.2.2 hc' hlen' with
    ⟨d, cur'', hd, hc'', hfr', hcut', hshrink'⟩
  have hq := hc''.queue
  refine ⟨(newFront d.1 d.2.1 r.2.2.1, d.2.2), _, ?_, hq.1, hq.2.2.trans (hfr'.trans hfr), ?_,
    fun c => ?_⟩
  · rw [sbcutInternal, hr, Option.bind_some, hd]
    rfl
  · rw [hq.2.1, hcut', hcut]
    rcases hrecs with hrecs | ⟨hrecs, hcur, hrs⟩
    · rw [hrecs]
      rfl
    rw [hrecs, hcur, hrs]
    rw [hcur, hrs] at hle
    have hz : len.toNat = 0 := Int.toNat_of_nonpos hle
    rw [hz]
    rfl
  dsimp only
  rw [hq.2.1, hflat]
  refine le_trans (le_of_eq ?_) ((hshrink' c).trans (hshrink c))
  by_cases hnil : cur'' = []
  · rw [if_pos hnil, hnil]
    rfl
  · rw [if_neg hnil]
    rfl

theorem freeRecord_spec :
    ∀ (cur : List Nat) (fuel : Nat) (sb : Sb) (m : Option Nat), Cutting sb m next cur rs →
      cur.length ≤ fuel → ∃ sb', freeRecord fuel sb m = some sb' ∧ Cutting sb' none next [] rs ∧
        sb'.mbufs = sb.mbufs ∧ sb'.fresh = sb.fresh ∧ sb'.mb = sb.mb := by
  intro cur
  induction cur with
  | nil =>
    intro fuel sb m h _
    obtain rfl : m = none := h.current
    exact ⟨sb, by rw [freeRecord], h, rfl, rfl, rfl⟩
  | cons i cur ih =>
    intro fuel sb m h hfuel
    obtain rfl : m = some i := h.current.1
    cases fuel with
    | zero => cases hfuel
    | succ fuel =>
      rcases ih fuel _ _ h.free.2 (Nat.le_of_succ_le_succ hfuel) with ⟨sb', hr, hc, hm, hf, hb⟩
      exact ⟨sb', hr, hc, hm, hf, hb⟩

/-- The first record goes. -/
theorem sbdroprecord_spec (h : Queue sb recs) : ∃ sb', sbdroprecordLocked sb = some sb' ∧
      Holds sb' sb.fresh (contents sb.mbufs recs).tail := by
  cases recs with
  | nil =>
    have hmb : sb.mb = none := h.pkts
    have hfix : sbdroprecordLocked sb = some { sb with mbtail := none, lastrecord := none } := by
      unfold sbdroprecordLocked emptyFixup
      rw [if_pos hmb]
      split
      case h_1 => rfl
      case h_2 i hi => exact nomatch hmb.symm.trans hi
    exact ⟨_, hfix, [], ⟨⟨h.nodup, h.below, h.nonempty, h.linked, h.pkts, rfl, h.counts⟩, rfl⟩,
      rfl, rfl⟩
  | cons r rs =>
    have hall : Cutting sb none sb.mb [] (r :: rs) :=
      ⟨h.nodup, h.below, h.nonempty, rfl, h.linked, h.pkts, h.counts, fun _ => h.tail,
        fun _ => h.last⟩
    rcases hall.switch with ⟨i, hi, -, hc⟩
    have hmb : Cutting { sb with mb := sb.nextpkt i } (some i) (sb.nextpkt i) r rs :=
      ⟨hc.nodup, hc.below, hc.nonempty, hc.current, hc.linked, hc.pkts, hc.counts, hc.tail, hc.last⟩
    rcases freeRecord_spec r sb.fresh _ _ hmb (h.record_length_le List.mem_cons_self) with
      ⟨sb', hr, hc', hm, hf, hb⟩
    refine ⟨emptyFixup sb', ?_, rs, ?_, ?_, ?_⟩
    · unfold sbdroprecordLocked
      split
      case h_1 hn => exact nomatch hi.symm.trans hn
      case h_2 j hj =>
        obtain rfl : j = i := Option.some.inj (hj.symm.trans hi)
        rw [hr]
        rfl
    · have hpkts := hc'.pkts
      unfold emptyFixup
      cases rs with
      | nil =>
        have hn : sb'.mb = none := hb.trans hpkts
        rw [if_pos hn]
        exact ⟨⟨hc'.nodup, hc'.below, hc'.nonempty, hc'.linked, hn, rfl, hc'.counts⟩, rfl⟩
      | cons r' rs' =>
        rcases hc'.switch with ⟨k, hk, hhead, -⟩
        have hne : [] ++ (r' :: rs').flatten ≠ [] := by
          rw [List.nil_append, List.flatten_cons]
          intro hnil
          rw [(List.append_eq_nil_iff.mp hnil).1] at hhead
          cases hhead
        have hsome : sb'.mb ≠ none := by
          rw [hb.trans hk]
          exact nofun
        rw [if_neg hsome]
        refine ⟨⟨hc'.nodup, hc'.below, hc'.nonempty, hc'.linked, ?_, hc'.tail hne, hc'.counts⟩,
          hc'.last (List.cons_ne_nil _ _)⟩
        rw [hb]
        exact hpkts
    · unfold emptyFixup
      have hcont : contents sb'.mbufs rs = contents sb.mbufs rs := by rw [hm]
      split
      · exact hcont
      · exact hcont
    unfold emptyFixup
    split
    · exact hf
    · exact hf

/-- A mbuf counts at least its own size. -/
theorem weight_mbcnt (m : Mbuf) : msize ≤ m.weight .mbcnt := by
  show 256 ≤ 0 + (256 + m.ext.getD 0)
  omega

theorem toNat_ofNat_lt {n : Nat} (h : n < 2 ^ 32) : (BitVec.ofNat 32 n).toNat = n := by
  rw [BitVec.toNat_ofNat, Nat.mod_eq_of_lt h]

/-- The totals of a queue that `sbflush_internal` can empty: the bytes fit an `int`,
    and the storage fits its counter. -/
def Flushable (mbufs : Nat → Mbuf) (l : List Nat) : Prop :=
  total mbufs l .ccc < 2 ^ 31 ∧ total mbufs l .mbcnt < 2 ^ 32

/-- The loop takes off a record in every round. -/
theorem sbflush_spec : ∀ (fuel : Nat) (sb : Sb) (recs : List (List Nat)), Queue sb recs →
      Flushable sb.mbufs recs.flatten → recs.length < fuel →
      ∃ sb', sbflushInternal fuel sb = some sb' ∧ Holds sb' sb.fresh [] := by
  intro fuel
  induction fuel with
  | zero => intro sb recs _ _ hlen; exact absurd hlen (Nat.not_lt_zero _)
  | succ fuel ih =>
    intro sb recs h hfits hfuel
    rw [sbflushInternal]
    cases recs with
    | nil =>
      have hzero : ∀ c, sb.counts c = 0 := h.counts
      have hmb : sb.mb = none := h.pkts
      have hstop : flushing sb = false := by
        unfold flushing
        rw [hzero]
        rfl
      rw [hstop, if_neg Bool.false_ne_true, if_pos ⟨hzero _, hmb, hzero _⟩]
      exact ⟨sb, rfl, [], h, rfl, rfl⟩
    | cons r rs =>
      rcases r with _ | ⟨i, r⟩
      · exact absurd rfl (h.nonempty [] List.mem_cons_self)
      have hmb : sb.mb = some i := h.pkts.1
      have htotal : ∀ c, total sb.mbufs ((i :: r) :: rs).flatten c =
          (sb.mbufs i).weight c + total sb.mbufs (r ++ rs.flatten) c := fun c => by
        rw [List.flatten_cons, List.cons_append, total_cons]
      have hccc : (sb.counts .ccc).toNat = total sb.mbufs ((i :: r) :: rs).flatten .ccc := by
        rw [h.counts, toNat_ofNat_lt (lt_trans hfits.1 (by decide))]
      have hgo : flushing sb = true := by
        unfold flushing
        rw [decide_eq_true_iff]
        refine ⟨fun hz => ?_, fun hz => ?_⟩
        · have hstore := congrArg BitVec.toNat hz
          rw [h.counts, toNat_ofNat_lt hfits.2, htotal] at hstore
          have := weight_mbcnt (sb.mbufs i)
          have hz : (0 : BitVec 32).toNat = 0 := rfl
          rw [hz] at hstore
          rw [msize] at this
          omega
        have hbytes := congrArg BitVec.toNat hz.1
        have hw : (sb.mbufs i).weight .ccc = (sb.mbufs i).data.length := rfl
        have hz' : (0 : BitVec 32).toNat = 0 := rfl
        rw [hccc, htotal, hw, hz'] at hbytes
        have hall := hz.2
        rw [hmb, Option.all_some, decide_eq_true_iff] at hall
        exact hall (List.length_eq_zero_iff.mp (by omega))
      have hint : (sb.counts .ccc).toInt = total sb.mbufs ((i :: r) :: rs).flatten .ccc := by
        rw [BitVec.toInt_eq_toNat_of_lt, hccc]
        rw [hccc]
        have := hfits.1
        omega
      rw [if_pos hgo]
      rcases sbcut_spec h (sb.counts .ccc).toInt hint.le with
        ⟨d, recs', hd, hq, hfr, hcut, hshrink⟩
      have hshort : recs'.length ≤ rs.length := by
        rw [← contents_length d.1.mbufs recs', hcut, hint, Int.toNat_natCast]
        refine (cutRecords_length_lt _ ?_).trans (contents_length sb.mbufs rs).le
        rw [size_eq_total, List.flatten_cons, total_append]
        exact Nat.le_add_right _ _
      rw [List.length_cons] at hfuel
      rcases ih d.1 recs' hq ⟨(hshrink _).trans_lt hfits.1, (hshrink _).trans_lt hfits.2⟩
        (by omega) with ⟨sb', hr, hh⟩
      rw [hfr] at hh
      exact ⟨sb', by rw [hd, Option.bind_some]; exact hr, hh⟩

end FreeBSDKern.Sockbuf
