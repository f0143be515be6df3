import FreeBSDKern.Sockbuf.Cut
import FreeBSDKern.Lib.Run

/-!
# Runs on a Socket Buffer

Along every run from the empty buffer the counters are those of the mbufs that the
pointers reach, in 32 bits, the two pointers to the end are right, and the records hold
what the operations say when they are applied in order. The records are carried along a
run by `specStep`, which sees nothing of the buffer but whether an operation that may
refuse its mbufs took them.

The loop of `sbflush_internal` comes to its end whenever the bytes on the buffer fit an
`int` and their storage fits its counter. It hands the count of bytes to
`sbcut_internal` as an `int`, so that from 2^31 bytes on it cuts nothing and goes on
forever (`two_gigabytes_loop`).

## Main definitions

* `specStep`: What an operation does to the records.
* `Allowed`: What callers see to, and that a flush can be done.

## Theorems

* `step_spec`: One step.
* `sockbuf_accounting`: Every run.
* `two_gigabytes_loop`: A run whose last buffer is never flushed.
-/

namespace FreeBSDKern.Sockbuf

open Lib Function

variable {sb : Sb} {recs : List (List Nat)}

/-- What an operation does to the records, if it returned `ret`. -/
def specStep (ret : Bool) (rs : List Record) : Op → List Record
  | .sbappend m => appendSpec rs m
  | .sbappendstream m => extendLast rs (m.flatMap Mbuf.bytes)
  | .sbappendrecord m0 => if m0 = [] then rs else rs ++ [gather false m0]
  | .sbappendaddr asa _ m0 control =>
    if ret then rs ++ [(soname asa :: (control ++ m0)).flatMap Mbuf.items] else rs
  | .sbappendcontrol m0 control =>
    if ret then rs ++ [(control ++ m0).flatMap Mbuf.items] else rs
  | .sbcut len => cutRecords len.toNat rs
  | .sbdroprecord => rs.tail
  | .sbflush => []
  | .limits _ _ _ _ => rs
  | .share _ _ => rs

/-- The buffer, with the records beside it. -/
def stepBoth (s : Sb × List Record) (o : Op) : Option (Sb × List Record) :=
  (step s.1 o).map (fun r => (r.1, specStep r.2 s.2 o))

/-- A stream has one record at most, data with an address has a packet header, control
    data is not missing, no more is cut than is counted, and a buffer that is flushed is
    not too large for that. -/
def Allowed (s : Sb × List Record) : Op → Prop
  | .sbappendstream m => m ≠ [] ∧ s.1.mb = s.1.lastrecord
  | .sbappendaddr _ _ m0 _ => ∀ m ∈ m0.head?, m.pktlen ≠ none
  | .sbappendcontrol _ control => control ≠ []
  | .sbcut len => len ≤ (s.1.counts .ccc).toNat
  | .sbflush => Flushable s.1.mbufs (records s.1).flatten
  | _ => True

instance (mbufs : Nat → Mbuf) (l : List Nat) : Decidable (Flushable mbufs l) := by
  unfold Flushable
  infer_instance

instance (s : Sb × List Record) (o : Op) : Decidable (Allowed s o) := by
  unfold Allowed
  split <;> infer_instance

/-- The numbers that a chain gets are new. -/
theorem number_fresh (h : Chains sb recs) (ms : List Mbuf) :
    Fresh (sb.receive ms.length) recs (sb.number ms) := by
  have hids : ids (sb.number ms) = List.range' sb.fresh ms.length := by
    rw [ids, Sb.number, List.map_fst_zip (by simp)]
  refine ⟨by rw [hids]; exact List.nodup_range', fun i hi => ?_, fun i hi hin => ?_⟩
  · rw [hids, List.mem_range'_1] at hi
    exact hi.2
  · rw [hids, List.mem_range'_1] at hi
    exact Nat.not_lt.mpr hi.1 (h.below i hin)

theorem number_snd (sb : Sb) (ms : List Mbuf) : (sb.number ms).map (fun e => e.2) = ms :=
  List.map_snd_zip (by simp)

theorem gatherItems_number (sb : Sb) (ms : List Mbuf) :
    gatherItems (sb.number ms) = ms.flatMap Mbuf.items := by
  have := congrArg (fun l => l.flatMap Mbuf.items) (number_snd sb ms)
  rwa [List.flatMap_map] at this

/-- Handing over mbufs leaves the queue alone. -/
theorem Queue.receive (h : Queue sb recs) (n : Nat) : Queue (sb.receive n) recs :=
  ⟨⟨h.nodup, fun i hi => (h.below i hi).trans_le (Nat.le_add_right _ _), h.nonempty, h.linked,
    h.pkts, h.tail, h.counts⟩, h.last⟩

/-- A chain that is numbered becomes a record as it is. -/
theorem Queue.append_number (h : Queue sb recs) {ms : List Mbuf} (hms : ms ≠ []) :
    Holds (appendChain (sb.receive ms.length) (sb.number ms)) (sb.fresh + ms.length)
      (contents sb.mbufs recs ++ [ms.flatMap Mbuf.items]) := by
  have hf := number_fresh h.toChains ms
  have hg := gatherItems_number sb ms
  have hsnd := number_snd sb ms
  generalize sb.number ms = chain at hf hg hsnd ⊢
  cases chain with
  | nil => exact absurd hsnd.symm hms
  | cons e rest =>
    rcases e with ⟨i, m⟩
    have hp := (h.receive ms.length).push_record hf
    refine ⟨_, hp.1, ?_, appendChain_fresh _ _ hf.nodup⟩
    rw [hp.2, hg]
    rfl

/-- The invariant of a run: the queue is in order, and it holds the records. -/
def Inv (s : Sb × List Record) : Prop :=
  ∃ recs, Queue s.1 recs ∧ contents s.1.mbufs recs = s.2

/-- The chain of the address, the control mbufs and the data, as it is put together. -/
theorem take_drop_chain (sb : Sb) (asa : List (BitVec 8)) (m0 control : List Mbuf) :
    (sb.fresh, soname asa) ::
        (((sb.number (soname asa :: (control ++ m0))).drop 1).take control.length ++
          (sb.number (soname asa :: (control ++ m0))).drop (control.length + 1)) =
      sb.number (soname asa :: (control ++ m0)) := by
  rw [show control.length + 1 = 1 + control.length by omega, ← List.drop_drop, List.take_append_drop]
  unfold Sb.number
  rw [List.length_cons, List.range'_succ, List.zip_cons_cons]
  rfl

theorem head_drop_chain (sb : Sb) (asa : List (BitVec 8)) (m0 control : List Mbuf) :
    ((sb.number (soname asa :: (control ++ m0))).drop (control.length + 1)).head?.map
        (fun e => e.2.pktlen) = m0.head?.map (fun m => m.pktlen) := by
  have h : ((sb.number (soname asa :: (control ++ m0))).drop (control.length + 1)).map
      (fun e => e.2) = m0 := by
    rw [List.map_drop, number_snd, List.drop_succ_cons, List.drop_left]
  have hmap := congrArg (fun l => l.head?.map (fun m => m.pktlen)) h
  rw [List.head?_map, Option.map_map] at hmap
  exact hmap

theorem sbappendaddr_spec (h : Queue sb recs) (asa : List (BitVec 8)) (alloc : Bool)
    (m0 control : List Mbuf) (hhdr : ∀ m ∈ m0.head?, m.pktlen ≠ none) :
    ∃ r, step sb (.sbappendaddr asa alloc m0 control) = some r ∧
      Inv (r.1, specStep r.2 (contents sb.mbufs recs) (.sbappendaddr asa alloc m0 control)) := by
  have hlen : control.length + m0.length + 1 = (soname asa :: (control ++ m0)).length := by
    rw [List.length_cons, List.length_append]
  have hrefused : Inv (sb.receive (soname asa :: (control ++ m0)).length, contents sb.mbufs recs) :=
    ⟨recs, h.receive _, rfl⟩
  unfold step
  dsimp only
  rw [hlen]
  unfold sbappendaddrLocked
  rw [head_drop_chain]
  split
  case h_1 hnone =>
    cases m0 with
    | nil => cases hnone
    | cons m m0 => exact absurd (Option.some.inj hnone) (hhdr m rfl)
  case h_2 =>
  dsimp only
  split
  case isTrue => exact ⟨(_, false), rfl, hrefused⟩
  case isFalse =>
  split
  case isTrue => exact ⟨(_, false), rfl, hrefused⟩
  case isFalse =>
  split
  case isTrue => exact ⟨(_, false), rfl, hrefused⟩
  case isFalse =>
  rw [take_drop_chain]
  rcases h.append_number (List.cons_ne_nil (soname asa) (control ++ m0)) with
    ⟨recs', hq, hc, -⟩
  exact ⟨(_, true), rfl, recs', hq, hc⟩

theorem sbappendcontrol_spec (h : Queue sb recs) (m0 control : List Mbuf) (hne : control ≠ []) :
    ∃ r, step sb (.sbappendcontrol m0 control) = some r ∧
      Inv (r.1, specStep r.2 (contents sb.mbufs recs) (.sbappendcontrol m0 control)) := by
  have hne' : control ++ m0 ≠ [] := fun hnil => hne (List.append_eq_nil_iff.mp hnil).1
  have htake : (sb.number (control ++ m0)).take control.length ≠ [] := by
    intro hnil
    have := congrArg List.length hnil
    rw [List.length_take, Sb.number, List.length_zip, List.length_range', Nat.min_self,
      List.length_append, List.length_nil] at this
    have := List.length_pos_iff.mpr hne
    omega
  unfold step
  dsimp only
  rw [← List.length_append]
  unfold sbappendcontrolLocked
  rw [if_neg htake]
  split
  case isTrue => exact ⟨(_, false), rfl, recs, h.receive _, rfl⟩
  case isFalse =>
    rw [List.take_append_drop]
    rcases h.append_number hne' with ⟨recs', hq, hc, -⟩
    exact ⟨(_, true), rfl, recs', hq, hc⟩

theorem mbufs_share (mbufs : Nat → Mbuf) (i j : Nat) (shared : Bool) (c : Counter) :
    (update mbufs i { mbufs i with shared := shared } j).weight c = (mbufs j).weight c ∧
      (update mbufs i { mbufs i with shared := shared } j).items = (mbufs j).items := by
  by_cases hj : j = i
  · rw [hj, update_self]
    exact ⟨rfl, rfl⟩
  · rw [update_of_ne hj]
    exact ⟨rfl, rfl⟩

/-- Every operation does to the records what `specStep` says. -/
theorem step_spec (s : Sb × List Record) (o : Op) (h : Inv s) (hok : Allowed s o) :
    ∃ s', stepBoth s o = some s' ∧ Inv s' := by
  rcases s with ⟨sb, rs⟩
  rcases h with ⟨recs, h, hrs⟩
  dsimp only at h hrs
  subst hrs
  cases o with
  | sbappend m =>
    rcases sbappend_spec (h.receive m.length) (number_fresh h.toChains m) with
      ⟨sb', hr, recs', hq, hc, -⟩
    rw [number_snd] at hc
    exact ⟨(sb', _), by rw [stepBoth, step, hr]; rfl, recs', hq, hc⟩
  | sbappendstream m =>
    have hf := number_fresh h.toChains m
    have hne : sb.number m ≠ [] := fun hnil => hok.1 (by
      rw [← number_snd sb m, hnil]
      rfl)
    rcases sbappendstream_spec (h.receive m.length) hf hne hok.2 with ⟨sb', hr, recs', hq, hc, -⟩
    rw [number_snd] at hc
    exact ⟨(sb', _), by rw [stepBoth, step, hr]; rfl, recs', hq, hc⟩
  | sbappendrecord m0 =>
    have hf := number_fresh h.toChains m0
    have hsnd := number_snd sb m0
    rw [stepBoth, step]
    cases hchain : sb.number m0 with
    | nil =>
      rw [hchain] at hsnd
      refine ⟨(_, _), rfl, recs, h.receive m0.length, ?_⟩
      show _ = if m0 = [] then _ else _
      have hnil : m0 = [] := hsnd.symm
      rw [if_pos hnil]
      rfl
    | cons e rest =>
      rcases e with ⟨i, m⟩
      rw [hchain] at hf hsnd
      rcases sbappendrecord_spec (h.receive m0.length) hf with ⟨sb', hr, recs', hq, hc, -⟩
      refine ⟨(sb', _), by rw [hr]; rfl, recs', hq, hc.trans ?_⟩
      show _ = if m0 = [] then _ else _
      rw [if_neg (by rw [← hsnd]; exact List.cons_ne_nil _ _), ← hsnd]
      rfl
  | sbappendaddr asa alloc m0 control =>
    rcases sbappendaddr_spec h asa alloc m0 control hok with ⟨r, hr, hinv⟩
    exact ⟨_, by rw [stepBoth, hr]; rfl, hinv⟩
  | sbappendcontrol m0 control =>
    rcases sbappendcontrol_spec h m0 control hok with ⟨r, hr, hinv⟩
    exact ⟨_, by rw [stepBoth, hr]; rfl, hinv⟩
  | sbcut len =>
    have hle : len ≤ total sb.mbufs recs.flatten .ccc := by
      have hle : len ≤ (sb.counts .ccc).toNat := hok
      rw [h.counts, BitVec.toNat_ofNat] at hle
      have := Nat.mod_le (total sb.mbufs recs.flatten .ccc) (2 ^ 32)
      omega
    rcases sbcut_spec h len hle with ⟨r, recs', hr, hq, -, hc, -⟩
    exact ⟨(r.1, _), by rw [stepBoth, step, hr]; rfl, recs', hq, hc⟩
  | sbdroprecord =>
    rcases sbdroprecord_spec h with ⟨sb', hr, recs', hq, hc, -⟩
    exact ⟨(sb', _), by rw [stepBoth, step, hr]; rfl, recs', hq, hc⟩
  | sbflush =>
    have hfits : Flushable sb.mbufs recs.flatten := by
      have hfits : Flushable sb.mbufs (records sb).flatten := hok
      rwa [records_eq h.toChains] at hfits
    rcases sbflush_spec (sb.fresh + 1) sb recs h hfits
      (Nat.lt_succ_of_le (h.count_le.trans h.length_le)) with ⟨sb', hr, recs', hq, hc, -⟩
    exact ⟨(sb', _), by rw [stepBoth, step, hr]; rfl, recs', hq, hc⟩
  | limits hiwat mbmax stop nocoalesce =>
    exact ⟨_, rfl, recs, ⟨⟨h.nodup, h.below, h.nonempty, h.linked, h.pkts, h.tail, h.counts⟩,
      h.last⟩, rfl⟩
  | share i shared =>
    refine ⟨_, rfl, recs, ⟨⟨h.nodup, h.below, h.nonempty, h.linked, h.pkts, h.tail, fun c => ?_⟩,
      h.last⟩, ?_⟩
    · dsimp only
      rw [h.counts]
      congr 1
      unfold total
      congr 1
      exact List.map_congr_left (fun j _ => (mbufs_share sb.mbufs i j shared c).1.symm)
    refine List.map_congr_left (fun r _ => ?_)
    unfold items
    congr 1
    funext j
    exact (mbufs_share sb.mbufs i j shared .ccc).2

/-- A buffer with nothing on it. -/
def Cleared (sb : Sb) : Prop :=
  sb.mb = none ∧ sb.mbtail = none ∧ sb.lastrecord = none ∧ ∀ c, sb.counts c = 0

/-- Along every run the queue is in order, with every counter the total over the mbufs
    that the pointers reach, the records hold what the operations say, and a flush that
    can be done clears the buffer. -/
theorem sockbuf_accounting (ops : List Op) (h : EveryStep stepBoth Allowed (empty, []) ops) :
    ∃ sb rs, runOps stepBoth (empty, []) ops = some (sb, rs) ∧ Queue sb (records sb) ∧
      contents sb.mbufs (records sb) = rs ∧ (Flushable sb.mbufs (records sb).flatten →
        ∃ sb', sbflushInternal (sb.fresh + 1) sb = some sb' ∧ Cleared sb') := by
  rcases runOps_progress_of stepBoth Allowed Inv step_spec ops (empty, [])
    ⟨[], empty_queue, rfl⟩ h with ⟨⟨sb, rs⟩, hrun, recs, hq, hc⟩
  dsimp only at hq hc
  have hrecs := records_eq hq.toChains
  refine ⟨sb, rs, hrun, hrecs.symm ▸ hq, hrecs.symm ▸ hc, fun hfits => ?_⟩
  rw [hrecs] at hfits
  rcases sbflush_spec (sb.fresh + 1) sb recs hq hfits
    (Nat.lt_succ_of_le (hq.count_le.trans hq.length_le)) with ⟨sb', hr, recs', hq', hc', -⟩
  obtain rfl := contents_eq_nil.mp hc'
  exact ⟨sb', hr, hq'.pkts, hq'.tail, hq'.last, hq'.counts⟩

/-- A mbuf of data. -/
def plain (data : List (BitVec 8)) (eor : Bool) : Mbuf :=
  ⟨data, mtData, eor, none, mlen - data.length, false, false, some 0⟩

/-- An example: data is coalesced and cut, and a mark begins a new record. -/
theorem sockbuf_accounting_example : ∃ sb rs, runOps stepBoth (empty, [])
        [.sbappend [plain [1, 2] false, plain [] false, plain [3] true], .sbappend [plain [4] false],
          .sbappendcontrol [plain [5] false] [plain [6, 7] false], .sbcut 2,
          .sbappendaddr [8, 9] true [] [], .sbdroprecord, .sbcut 1, .sbflush,
          .sbappendstream [plain [1] true], .sbappendstream [plain [2] false]] = some (sb, rs) ∧
      Queue sb (records sb) ∧ contents sb.mbufs (records sb) = rs ∧
      (Flushable sb.mbufs (records sb).flatten →
        ∃ sb', sbflushInternal (sb.fresh + 1) sb = some sb' ∧ Cleared sb') := by
  refine sockbuf_accounting _ ?_
  decide

/-- The count of bytes is negative as an `int`. -/
def Stuck (sb : Sb) : Prop :=
  (sb.counts .ccc).toInt < 0 ∧ sb.counts .mbcnt ≠ 0 ∧ ∃ i, sb.mb = some i ∧ (sb.mbufs i).data ≠ []

/-- A cut of a negative length leaves the buffer as it is. -/
theorem flush_stuck : ∀ (fuel : Nat) (sb : Sb), Stuck sb → sbflushInternal fuel sb = none := by
  intro fuel
  induction fuel with
  | zero => intro sb _; rfl
  | succ fuel ih =>
    rintro sb ⟨hneg, hmbcnt, i, hi, hdata⟩
    have hgo : flushing sb = true := by
      unfold flushing
      rw [decide_eq_true_iff]
      refine ⟨hmbcnt, fun hz => ?_⟩
      rw [hz.1] at hneg
      exact absurd hneg (by decide)
    have hloop : cutLoop (sb.fresh + 1) sb sb.mb (sb.mb.bind sb.nextpkt) (sb.counts .ccc).toInt [] =
        some (sb, some i, sb.nextpkt i, []) := by
      rw [cutLoop, if_neg (by omega), hi]
      rfl
    rw [sbflushInternal, if_pos hgo, sbcutInternal, hloop, Option.bind_some]
    dsimp only
    cases hf : sb.fresh with
    | zero => rfl
    | succ n =>
      rw [dropEmpty, if_neg hdata, Option.map_some, Option.bind_some]
      refine ih _ ?_
      unfold newFront
      dsimp only
      split
      case isTrue => exact ⟨hneg, hmbcnt, i, rfl, hdata⟩
      case isFalse => exact ⟨hneg, hmbcnt, i, rfl, hdata⟩

/-- A mbuf that is appended twice. -/
theorem twice_stuck (m : Mbuf) (hdata : m.data ≠ [])
    (hccc : (BitVec.ofNat 32 (m.weight .ccc) + BitVec.ofNat 32 (m.weight .ccc)).toInt < 0)
    (hmbcnt : BitVec.ofNat 32 (m.weight .mbcnt) + BitVec.ofNat 32 (m.weight .mbcnt) ≠ 0) :
    ∃ sb rs, runOps stepBoth (empty, []) [.sbappendrecord [m], .sbappendrecord [m]] =
      some (sb, rs) ∧ Stuck sb := by
  refine ⟨_, _, rfl, ?_, ?_, 0, rfl, hdata⟩
  · show (0 + BitVec.ofNat 32 (m.weight .ccc) + BitVec.ofNat 32 (m.weight .ccc)).toInt < 0
    rwa [zero_add]
  · show 0 + BitVec.ofNat 32 (m.weight .mbcnt) + BitVec.ofNat 32 (m.weight .mbcnt) ≠ 0
    rwa [zero_add]

/-- A mbuf of `n` bytes in a cluster of that size, twice. -/
theorem clusters_stuck (n : Nat) (hpos : 0 < n)
    (hccc : (BitVec.ofNat 32 n + BitVec.ofNat 32 n).toInt < 0)
    (hmbcnt : BitVec.ofNat 32 (msize + n) + BitVec.ofNat 32 (msize + n) ≠ 0) :
    ∃ ops sb rs, runOps stepBoth (empty, []) ops = some (sb, rs) ∧
      ∀ fuel, sbflushInternal fuel sb = none := by
  have hlen : (List.replicate n (0 : BitVec 8)).length = n := List.length_replicate
  have hne : List.replicate n (0 : BitVec 8) ≠ [] := by
    intro hnil
    rw [hnil, List.length_nil] at hlen
    omega
  have hw : ∀ c, (⟨List.replicate n 0, mtData, false, some n, 0, true, false, none⟩ : Mbuf).weight c =
      dataWeight mtData n c + storeWeight (some n) c := by
    intro c
    rw [Mbuf.weight, hlen]
  have hstore : dataWeight mtData n .mbcnt + storeWeight (some n) .mbcnt = msize + n :=
    Nat.zero_add _
  rcases twice_stuck ⟨List.replicate n 0, mtData, false, some n, 0, true, false, none⟩ hne
    (by rw [hw]; exact hccc) (by rw [hw, hstore]; exact hmbcnt) with
    ⟨sb, rs, hrun, hstuck⟩
  exact ⟨_, sb, rs, hrun, fun fuel => flush_stuck fuel sb hstuck⟩

/-- Two records of a gigabyte each, and the loop of the flush never ends. -/
theorem two_gigabytes_loop : ∃ ops sb rs, runOps stepBoth (empty, []) ops = some (sb, rs) ∧
      ∀ fuel, sbflushInternal fuel sb = none :=
  clusters_stuck 1073741824 (by decide) (by decide) (by decide)

end FreeBSDKern.Sockbuf
