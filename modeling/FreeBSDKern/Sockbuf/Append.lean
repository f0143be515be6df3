import FreeBSDKern.Sockbuf.Queue

/-!
# Appending to a Socket Buffer

`sbcompress` drops mbufs, copies their data into others and links the rest, and
carries the mark of every mbuf to the end. Whatever it does with a chain, the last
record goes on with the bytes of the chain, and with one mark if there was any
(`sbcompress_spec`). The induction is on the chain; what is carried along is the mark,
the last mbuf on the queue and, while the queue is still empty, that `sb_lastrecord` is
the next mbuf of the chain.

The other operations find the record to go on with, or begin a new one.

## Main definitions

* `gather`: The bytes of a chain, with one mark at the end.
* `extendLast`: The last record goes on.

## Theorems

* `sbcompress_spec`: Its effect on the records.
* `sbappendrecord_spec`, `sbappend_spec`, `sbappendstream_spec`: The operations that
  use it.
-/

namespace FreeBSDKern.Sockbuf

open Lib Function

variable {sb : Sb} {recs : List (List Nat)}

/-- The bytes of some mbufs, and a mark if one of them has one or `eor` is set. -/
def gather (eor : Bool) (ms : List Mbuf) : Record :=
  ms.flatMap Mbuf.bytes ++ mark (eor || ms.any (fun m => m.eor))

/-- The last record goes on, or the first one begins. -/
def extendLast (rs : List Record) (X : Record) : List Record :=
  match rs.getLast? with
  | none => if X = [] then [] else [X]
  | some r => rs.dropLast ++ [r ++ X]

variable (m0 : Mbuf) (chain rest : Chain) (rs : List Record)

@[simp] theorem extendLast_concat (r X : Record) : extendLast (rs ++ [r]) X = rs ++ [r ++ X] := by
  unfold extendLast
  rw [List.getLast?_concat, List.dropLast_concat]

theorem extendLast_nil : extendLast rs [] = rs := by
  rcases List.eq_nil_or_concat rs with hnil | ⟨init, r, hr⟩
  · rw [hnil]
    rfl
  · rw [hr, List.concat_eq_append, extendLast_concat, List.append_nil]

theorem extendLast_empty {X : Record} (hX : X ≠ []) : extendLast [] X = [X] := by
  show (if X = [] then [] else [X]) = _
  rw [if_neg hX]

theorem gather_cons (eor : Bool) (m : Mbuf) (ms : List Mbuf) :
    gather eor (m :: ms) = m.bytes ++ gather (eor || m.eor) ms := by
  unfold gather
  rw [List.flatMap_cons, List.any_cons, Bool.or_assoc, List.append_assoc]

theorem contents_concat (mbufs : Nat → Mbuf) (init : List (List Nat)) (r : List Nat) :
    contents mbufs (init ++ [r]) = contents mbufs init ++ [items mbufs r] := by
  rw [contents, List.map_append]
  rfl

theorem contents_length (mbufs : Nat → Mbuf) (recs : List (List Nat)) :
    (contents mbufs recs).length = recs.length := List.length_map _

theorem contents_eq_nil {mbufs : Nat → Mbuf} : contents mbufs recs = [] ↔ recs = [] :=
  List.map_eq_nil_iff

theorem dataWeight_add (type a b : Nat) (c : Counter) :
    dataWeight type (a + b) c = dataWeight type a c + dataWeight type b c := by
  cases c with
  | ctl =>
    by_cases ht : type ≠ mtData ∧ type ≠ mtOobdata
    · simp only [dataWeight, if_pos ht]
    · simp only [dataWeight, if_neg ht]
  | _ => rfl

/-- `sb_lastrecord` is the last record, or the next mbuf of the chain if there is no
    record yet. -/
def Ahead (sb : Sb) (recs : List (List Nat)) (chain : Chain) : Prop :=
  sb.lastrecord = if recs = [] then (ids chain).head? else recs.getLast?.bind List.head?

theorem last_mem {l : Nat} (hl : recs.getLast?.bind List.head? = some l) : l ∈ recs.flatten := by
  rcases Option.bind_eq_some_iff.mp hl with ⟨r, hr, hhead⟩
  exact List.mem_flatten.mpr ⟨r, List.mem_of_getLast? hr, List.mem_of_mem_head? hhead⟩

/-- A pointer that is ahead of the queue follows the chain. -/
theorem Ahead.drop {i : Nat} {m : Mbuf} {rest : Chain}
    (hf : Fresh sb recs ((i, m) :: rest)) (ha : Ahead sb recs ((i, m) :: rest)) :
    Ahead (if sb.lastrecord = some i then { sb with lastrecord := rest.head?.map (fun e => e.1) }
      else sb) recs rest := by
  unfold Ahead at ha ⊢
  by_cases hnil : recs = []
  · rw [if_pos hnil] at ha ⊢
    rw [if_pos (by rw [ha]; rfl), ids, List.head?_map]
  rw [if_neg hnil] at ha ⊢
  rw [if_neg (fun he => ?_), ha]
  exact hf.new i List.mem_cons_self (last_mem (ha.symm.trans he))

theorem Chains.setLast (h : Chains sb recs) (l : Option Nat) :
    Chains { sb with lastrecord := l } recs :=
  ⟨h.nodup, h.below, h.nonempty, h.linked, h.pkts, h.tail, h.counts⟩

/-- Data that is copied into the last mbuf. -/
theorem Chains.coalesce {init : List (List Nat)} {r : List Nat} {z : Nat} {m : Mbuf}
    (h : Chains sb (init ++ [r ++ [z]])) (htype : (sb.mbufs z).type = m.type) :
    Chains (coalesce sb z m) (init ++ [r ++ [z]]) := by
  refine h.replace_last (fun c => ?_)
  rw [Mbuf.weight, Mbuf.weight]
  dsimp only
  rw [List.length_append, dataWeight_add, htype]
  simp only [BitVec.ofNat_add]
  ac_rfl

theorem Chains.setEor {init : List (List Nat)} {r : List Nat} {z : Nat}
    (h : Chains sb (init ++ [r ++ [z]])) : Chains (setEor sb z) (init ++ [r ++ [z]]) :=
  h.replace_last (fun _ => rfl)

theorem getLast_flatten (init : List (List Nat)) (r : List Nat) (z : Nat) :
    (init ++ [r ++ [z]]).flatten.getLast? = some z := by
  rw [flatten_concat, ← List.append_assoc, List.getLast?_concat]

/-- What `sbcompress` leaves alone. -/
structure Compressed (sb sb' : Sb) (recs recs' : List (List Nat)) (chain : Chain) (X : Record) :
    Prop where
  chains : Chains sb' recs'
  contents : contents sb'.mbufs recs' = extendLast (contents sb.mbufs recs) X
  fresh : sb'.fresh = sb.fresh
  last : Ahead sb recs chain → sb'.lastrecord = recs'.getLast?.bind List.head?

/-- Whatever becomes of the single mbufs, the last record goes on with the bytes of the
    chain and one mark for all its marks. -/
theorem sbcompress_spec :
    ∀ (chain : Chain) (sb : Sb) (recs : List (List Nat)) (n : Option Nat) (eor : Bool),
      Chains sb recs → n = recs.flatten.getLast? → Fresh sb recs chain →
      (eor = true → recs ≠ [] ∨ chain ≠ []) →
      ((eor || (chain.map (fun e => e.2)).any (fun m => m.eor)) = true →
        ∀ z ∈ n, (sb.mbufs z).eor = false) →
      ∃ sb' recs', sbcompress sb chain n eor = some sb' ∧
        Compressed sb sb' recs recs' chain (gather eor (chain.map (fun e => e.2))) := by
  intro chain
  induction chain with
  | nil =>
    intro sb recs n eor h hn _ hsome hunmarked
    cases eor with
    | false =>
      refine ⟨sb, recs, rfl, h, (extendLast_nil _).symm, rfl, fun ha => ?_⟩
      unfold Ahead at ha
      rw [ha]
      split
      case isTrue hnil => rw [hnil]; rfl
      case isFalse => rfl
    | true =>
      have hne : recs ≠ [] := (hsome rfl).resolve_right (fun hc => hc rfl)
      rcases h.split_last hne with ⟨init, r, z, rfl⟩
      rw [getLast_flatten] at hn
      refine ⟨setEor sb z, _, by rw [hn]; rfl, h.setEor, ?_, rfl, fun ha => ?_⟩
      · rw [setEor, contents_replace_last h.nodup, contents_concat, extendLast_concat, items_append,
          items_singleton, Mbuf.items, Mbuf.items, hunmarked rfl z hn]
        simp [gather, mark, Mbuf.bytes]
      · unfold Ahead at ha
        rwa [if_neg hne] at ha
  | cons e rest ih =>
    intro sb recs n eor h hn hf hsome hunmarked
    rcases e with ⟨i, m⟩
    rw [sbcompress]
    rw [List.map_cons, List.any_cons, ← Bool.or_assoc] at hunmarked
    rw [List.map_cons, gather_cons]
    dsimp only
    by_cases hdrop : m.data = [] ∧ ((eor || m.eor) = false ∨ neighbour sb rest n = some m.type)
    · -- The mbuf is dropped.
      rw [if_pos hdrop]
      have hsome' : (eor || m.eor) = true → recs ≠ [] ∨ rest ≠ [] := by
        intro he
        have hnb := hdrop.2.resolve_left (by rw [he]; exact nofun)
        cases rest with
        | cons e' rest' => exact .inr (List.cons_ne_nil _ _)
        | nil =>
          refine .inl (fun hnil => ?_)
          rw [hn, hnil] at hnb
          cases hnb
      have hchains : Chains (if sb.lastrecord = some i then
          { sb with lastrecord := rest.head?.map (fun e => e.1) } else sb) recs := by
        split
        · exact h.setLast _
        · exact h
      have hfields : (if sb.lastrecord = some i then
          { sb with lastrecord := rest.head?.map (fun e => e.1) } else sb).mbufs = sb.mbufs ∧
          (if sb.lastrecord = some i then
            { sb with lastrecord := rest.head?.map (fun e => e.1) } else sb).fresh = sb.fresh := by
        split
        · exact ⟨rfl, rfl⟩
        · exact ⟨rfl, rfl⟩
      have hf' := hf.tail
      rcases ih _ recs n (eor || m.eor) hchains hn
        ⟨hf'.nodup, fun j hj => by rw [hfields.2]; exact hf'.below j hj, hf'.new⟩ hsome'
        (by rw [hfields.1]; exact hunmarked) with ⟨sb', recs', hrun, hc⟩
      have hbytes : m.bytes = [] := by rw [Mbuf.bytes, hdrop.1]; rfl
      rw [hbytes, List.nil_append]
      exact ⟨sb', recs', hrun, hc.chains, by rw [hc.contents, hfields.1],
        hc.fresh.trans hfields.2, fun ha => hc.last (ha.drop hf)⟩
    · rw [if_neg hdrop]
      by_cases hco : n.any (fun n => coalesces sb (sb.mbufs n) m) = true
      · -- Its data goes into the last mbuf on the queue.
        rw [if_pos hco]
        rcases (Option.any_eq_true _ _).mp hco with ⟨z, hz, hcond⟩
        have hne : recs ≠ [] := fun hnil => by
          rw [hn, hnil] at hz
          cases hz
        rcases h.split_last hne with ⟨init, r, z', rfl⟩
        have hzz : z' = z := by
          rw [hn, getLast_flatten] at hz
          exact Option.some.inj hz
        subst hzz
        simp only [coalesces, Bool.and_eq_true, Bool.not_eq_true', decide_eq_true_eq] at hcond
        have heor : (sb.mbufs z').eor = false := hcond.1.1.1.1.1
        have htype : (sb.mbufs z').type = m.type := hcond.2
        have hmb : (coalesce sb z' m).mbufs z' = { sb.mbufs z' with
            data := (sb.mbufs z').data ++ m.data,
            room := (sb.mbufs z').room - m.data.length } := update_self ..
        rw [hz, Option.elim]
        rcases ih (coalesce sb z' m) _ (some z') (eor || m.eor) (h.coalesce htype)
          (getLast_flatten _ _ _).symm ⟨hf.tail.nodup, hf.tail.below, hf.tail.new⟩
          (fun _ => .inl hne) (fun _ z hzn => by
            rw [← Option.some.inj hzn, hmb]
            exact heor) with ⟨sb', recs', hrun, hc⟩
        refine ⟨sb', recs', hrun, hc.chains, ?_, hc.fresh, fun ha => hc.last ?_⟩
        · rw [hc.contents, coalesce, contents_replace_last h.nodup, extendLast_concat,
            contents_concat, extendLast_concat, items_append, items_singleton]
          have hitems : Mbuf.items { sb.mbufs z' with
              data := (sb.mbufs z').data ++ m.data,
              room := (sb.mbufs z').room - m.data.length } = (sb.mbufs z').items ++ m.bytes := by
            rw [Mbuf.items, Mbuf.items, Mbuf.bytes, Mbuf.bytes, Mbuf.bytes, heor, List.map_append,
              htype]
            simp [mark]
          rw [hitems]
          simp only [List.append_assoc]
        unfold Ahead at ha ⊢
        rw [if_neg hne] at ha ⊢
        exact ha
      · -- It goes onto the queue.
        rw [if_neg hco]
        have hi : i < sb.fresh := hf.below i List.mem_cons_self
        have hnew : i ∉ recs.flatten := hf.new i List.mem_cons_self
        have hnodup := List.nodup_cons.mp hf.nodup
        by_cases hnil : recs = []
        · subst hnil
          have hn' : n = none := hn
          subst hn'
          rcases ih (linkMbuf sb none i m) [[i]] (some i) (eor || m.eor) (h.link_first hi) rfl
            ⟨hf.tail.nodup, hf.tail.below, fun j hj hc => hnodup.1 (by
              rw [← List.mem_singleton.mp hc]
              exact hj)⟩ (fun _ => .inl (List.cons_ne_nil _ _)) (fun _ z hz => by
              rw [← Option.some.inj hz]
              rw [linkMbuf_self]) with ⟨sb', recs', hrun, hc⟩
          refine ⟨sb', recs', hrun, hc.chains, ?_, hc.fresh, fun ha => hc.last ha⟩
          have hfirst : contents (linkMbuf sb none i m).mbufs [[i]] = [m.bytes] := by
            show [items _ [i]] = _
            rw [items_singleton]
            show [(update sb.mbufs i _ i).items] = _
            rw [update_self]
            exact congrArg (fun x => [x]) (List.append_nil _)
          have hX : m.bytes ++ gather (eor || m.eor) (rest.map (fun e => e.2)) ≠ [] := by
            intro hc
            rw [List.append_eq_nil_iff, Mbuf.bytes, List.map_eq_nil_iff] at hc
            refine hdrop ⟨hc.1, .inl ?_⟩
            have hmark := (List.append_eq_nil_iff.mp hc.2).2
            cases he : (eor || m.eor) with
            | false => rfl
            | true =>
              rw [he, Bool.true_or] at hmark
              cases hmark
          rw [hc.contents, hfirst, show contents sb.mbufs [] = [] from rfl, extendLast_empty hX]
          exact extendLast_concat [] _ _
        rcases h.split_last hnil with ⟨init, r, z, rfl⟩
        rw [getLast_flatten] at hn
        subst hn
        have hlink := h.link_last (m := m) hi hnew
        have hmem : ∀ j, j ∈ (init ++ [r ++ [z] ++ [i]]).flatten →
            j ∈ (init ++ [r ++ [z]]).flatten ∨ j = i := fun j hj => by
          rw [flatten_concat, ← List.append_assoc, List.mem_append, List.mem_singleton] at hj
          rwa [flatten_concat]
        rcases ih (linkMbuf sb (some z) i m) _ (some i) (eor || m.eor) hlink
          (getLast_flatten init (r ++ [z]) i).symm
          ⟨hf.tail.nodup, hf.tail.below, fun j hj hc => (hmem j hc).elim (hf.tail.new j hj)
            (fun he => hnodup.1 (he ▸ hj))⟩ (fun _ => .inl (by simp)) (fun _ z' hz' => by
            rw [← Option.some.inj hz']
            rw [linkMbuf_self]) with ⟨sb', recs', hrun, hc⟩
        refine ⟨sb', recs', hrun, hc.chains, ?_, hc.fresh, fun ha => hc.last ?_⟩
        · rw [hc.contents, contents_link_last hnew, extendLast_concat, contents_concat,
            extendLast_concat, List.append_assoc]
        unfold Ahead at ha ⊢
        rw [if_neg hnil] at ha
        rw [if_neg (by simp)]
        show sb.lastrecord = _
        rw [ha, List.getLast?_concat, List.getLast?_concat]
        cases r with
        | nil | cons a r => rfl

theorem any_passEor : ((passEor m0 rest).map (fun e => e.2)).any (fun m => m.eor) =
      (!rest.isEmpty && (m0.eor || (rest.map (fun e => e.2)).any (fun m => m.eor))) := by
  cases rest with
  | nil => rfl
  | cons e rest =>
    rcases e with ⟨i, m⟩
    simp only [passEor, List.map_cons, List.any_cons, List.isEmpty_cons, Bool.not_false,
      Bool.true_and]
    ac_rfl

theorem bytes_passEor : ((passEor m0 rest).map (fun e => e.2)).flatMap Mbuf.bytes =
      (rest.map (fun e => e.2)).flatMap Mbuf.bytes := by
  cases rest with
  | nil => rfl
  | cons e rest => rfl

theorem ids_passEor : ids (passEor m0 rest) = ids rest := by
  cases rest with
  | nil => rfl
  | cons e rest => rfl

/-- The result of an operation: the queue is in order and holds certain records. -/
def Holds (sb : Sb) (fresh : Nat) (rs : List Record) : Prop :=
  ∃ recs, Queue sb recs ∧ contents sb.mbufs recs = rs ∧ sb.fresh = fresh

theorem appendChain_self (sb : Sb) (i : Nat) (m : Mbuf) :
    (appendChain sb [(i, m)]).mbufs i = m := by
  show (sblinkrecord (install sb [(i, m)]) i).mbufs i = m
  unfold sblinkrecord
  cases (install sb [(i, m)]).lastrecord with
  | none | some l => exact update_self i m sb.mbufs

theorem appendChain_fresh (sb : Sb) (chain : Chain) (h : (ids chain).Nodup) :
    (appendChain sb chain).fresh = sb.fresh := by
  cases chain with
  | nil => rfl
  | cons e rest =>
    have hfresh := (install_spec sb (e :: rest) h).fresh
    show (sblinkrecord (install sb (e :: rest)) e.1).fresh = sb.fresh
    unfold sblinkrecord
    cases (install sb (e :: rest)).lastrecord with
    | none | some l => exact hfresh

/-- A new record holds all that is in the chain, even nothing. -/
theorem sbappendrecord_spec (h : Queue sb recs) {i : Nat} {m0 : Mbuf} {rest : Chain}
    (hf : Fresh sb recs ((i, m0) :: rest)) :
    ∃ sb', sbappendrecordLocked sb ((i, m0) :: rest) = some sb' ∧ Holds sb' sb.fresh
        (contents sb.mbufs recs ++ [gather false (m0 :: rest.map (fun e => e.2))]) := by
  have hnodup := List.nodup_cons.mp hf.nodup
  have hfirst : Fresh sb recs [(i, { m0 with eor := m0.eor && rest.isEmpty })] :=
    ⟨List.nodup_singleton i, fun j hj => hf.below j (List.mem_cons.mpr (.inl (List.mem_singleton.mp hj))),
      fun j hj => hf.new j (List.mem_cons.mpr (.inl (List.mem_singleton.mp hj)))⟩
  rcases h.push_record hfirst with ⟨hq, hc⟩
  have hself := appendChain_self sb i { m0 with eor := m0.eor && rest.isEmpty }
  have hfr := appendChain_fresh sb _ hfirst.nodup
  rw [sbappendrecordLocked]
  show ∃ sb', sbcompress (appendChain sb [(i, { m0 with eor := m0.eor && rest.isEmpty })])
    (passEor m0 rest) (some i) false = some sb' ∧ _
  generalize appendChain sb [(i, { m0 with eor := m0.eor && rest.isEmpty })] = sb₁ at *
  have hf₁ : Fresh sb₁ (recs ++ [ids [(i, ({ m0 with eor := m0.eor && rest.isEmpty } : Mbuf))]])
      (passEor m0 rest) := by
    refine ⟨by rw [ids_passEor]; exact hnodup.2, fun j hj => ?_, fun j hj hc => ?_⟩
    · rw [ids_passEor] at hj
      rw [hfr]
      exact hf.below j (List.mem_cons_of_mem i hj)
    rw [ids_passEor] at hj
    rw [flatten_concat, List.mem_append] at hc
    rcases hc with hc | hc
    · exact hf.new j (List.mem_cons_of_mem i hj) hc
    · rw [List.mem_singleton.mp hc] at hj
      exact hnodup.1 hj
  rcases sbcompress_spec (passEor m0 rest) sb₁ _ (some i) false hq.toChains
    (by rw [flatten_concat]; exact List.getLast?_concat.symm) hf₁ nofun (fun hany z hz => by
      rw [Bool.false_or, any_passEor, Bool.and_eq_true, Bool.not_eq_true'] at hany
      rw [← Option.some.inj hz, hself]
      exact (congrArg (fun b => m0.eor && b) hany.1).trans (Bool.and_false _)) with
    ⟨sb', recs', hrun, hc'⟩
  refine ⟨sb', hrun, recs', ⟨hc'.chains, hc'.last ?_⟩, ?_, hc'.fresh.trans hfr⟩
  · unfold Ahead
    rw [if_neg (by simp)]
    exact hq.last
  rw [hc'.contents, hc, extendLast_concat, gather, any_passEor, bytes_passEor, gather,
    List.flatMap_cons, List.any_cons]
  congr 2
  cases rest with
  | nil => simp [gatherItems, Mbuf.items, Mbuf.bytes, mark]
  | cons e rest =>
    have hitems : gatherItems [(i, { m0 with eor := m0.eor && (e :: rest).isEmpty })] =
        m0.bytes := by
      show (m0.bytes ++ mark (m0.eor && false)) ++ [] = m0.bytes
      rw [Bool.and_false, List.append_nil]
      exact List.append_nil _
    rw [hitems, List.append_assoc]
    rfl

/-- A walk over the heads of the records finds the last one. -/
theorem lastPkt_spec {nextpkt : Nat → Option Nat} :
    ∀ (l : List Nat) (n fuel : Nat), Linked some nextpkt (some n) l none → l.length ≤ fuel →
      ∃ z, lastPkt nextpkt fuel n = some z ∧ l.getLast? = some z := by
  intro l
  induction l with
  | nil => intro n fuel h _; cases h
  | cons a l ih =>
    intro n fuel h hlen
    rcases h with ⟨hna, h⟩
    rw [Option.some.inj hna]
    cases fuel with
    | zero => cases hlen
    | succ fuel =>
      cases l with
      | nil =>
        rw [linked_nil] at h
        exact ⟨a, by rw [lastPkt, h], rfl⟩
      | cons b l =>
        have hb : nextpkt a = some b := h.1
        rw [hb] at h
        rcases ih b fuel h (Nat.le_of_succ_le_succ hlen) with ⟨z, hz, hlast⟩
        exact ⟨z, by rw [lastPkt, hb]; exact hz, by rw [List.getLast?_cons_cons]; exact hlast⟩

/-- A walk over a record finds a mark, or the last mbuf. -/
theorem findEor_spec :
    ∀ (l : List Nat) (n fuel : Nat), Linked some sb.next (some n) l none → l.length ≤ fuel →
      ∃ r, findEor sb fuel n = some r ∧ r.1 = l.any (fun i => (sb.mbufs i).eor) ∧
        (r.1 = false → l.getLast? = some r.2) := by
  intro l
  induction l with
  | nil => intro n fuel h _; cases h
  | cons a l ih =>
    intro n fuel h hlen
    rcases h with ⟨hna, h⟩
    rw [Option.some.inj hna]
    cases fuel with
    | zero => cases hlen
    | succ fuel =>
      rw [findEor, List.any_cons]
      by_cases hm : (sb.mbufs a).eor = true
      · rw [if_pos hm, hm]
        exact ⟨_, rfl, rfl, nofun⟩
      rw [if_neg hm, Bool.eq_false_iff.mpr hm, Bool.false_or]
      cases l with
      | nil =>
        rw [linked_nil] at h
        exact ⟨(false, a), by rw [h], rfl, fun _ => rfl⟩
      | cons b l =>
        have hb : sb.next a = some b := h.1
        rw [hb] at h ⊢
        rcases ih b fuel h (Nat.le_of_succ_le_succ hlen) with ⟨r, hr, hany, hlast⟩
        exact ⟨r, hr, hany, fun hf => by rw [List.getLast?_cons_cons]; exact hlast hf⟩

theorem mem_items_eor {mbufs : Nat → Mbuf} {r : List Nat} :
    Item.eor ∈ items mbufs r ↔ r.any (fun i => (mbufs i).eor) = true := by
  rw [items, List.mem_flatMap, List.any_eq_true]
  refine exists_congr (fun i => and_congr_right (fun _ => ?_))
  rw [Mbuf.items, List.mem_append, Mbuf.bytes]
  cases (mbufs i).eor with
  | false | true => simp [mark]

/-- What `sbappend` does to the records. -/
def appendSpec (rs : List Record) (ms : List Mbuf) : List Record :=
  if ms = [] then rs
  else if rs.getLast?.any (fun r => Item.eor ∈ r) then rs ++ [gather false ms]
  else extendLast rs (gather false ms)

/-- A chain goes on with the last record, or begins a new one after a mark. -/
theorem sbappend_spec (h : Queue sb recs) {chain : Chain} (hf : Fresh sb recs chain) :
    ∃ sb', sbappendLocked sb chain = some sb' ∧
      Holds sb' sb.fresh (appendSpec (contents sb.mbufs recs) (chain.map (fun e => e.2))) := by
  cases chain with
  | nil => exact ⟨sb, rfl, recs, h, rfl, rfl⟩
  | cons e rest =>
    rcases e with ⟨i, m⟩
    unfold sbappendLocked appendSpec
    rw [if_neg (by simp)]
    dsimp only
    by_cases hnil : recs = []
    · subst hnil
      have hmb : sb.mb = none := h.pkts
      have hlr : sb.lastrecord = none := h.last
      rcases sbcompress_spec ((i, m) :: rest) { sb with lastrecord := some i } [] none false
        (h.toChains.setLast _) rfl ⟨hf.nodup, hf.below, hf.new⟩ nofun nofun with
        ⟨sb', recs', hrun, hc⟩
      split
      case h_1 n hn => exact nomatch hmb.symm.trans hn
      case h_2 =>
      split
      case h_1 n hn => exact nomatch hlr.symm.trans hn
      case h_2 =>
        exact ⟨sb', hrun, recs', ⟨hc.chains, hc.last rfl⟩, hc.contents, hc.fresh⟩
    rcases h.split_last hnil with ⟨init, r, z, rfl⟩
    -- The first mbuf of the last record.
    have hhead : ∃ l, (r ++ [z]).head? = some l := by
      cases r with
      | nil => exact ⟨z, rfl⟩
      | cons a r => exact ⟨a, rfl⟩
    rcases hhead with ⟨l, hl⟩
    have hheads : (init ++ [r ++ [z]]).filterMap List.head? =
        init.filterMap List.head? ++ [l] := by
      rw [List.filterMap_append]
      simp [hl]
    have hpkts := h.pkts
    rw [hheads] at hpkts
    have hmb : ∃ n, sb.mb = some n := by
      rw [hpkts.head]
      cases init.filterMap List.head? with
      | nil => exact ⟨l, rfl⟩
      | cons a t => exact ⟨a, rfl⟩
    rcases hmb with ⟨n, hn⟩
    rw [hn] at hpkts
    have hlen := h.heads_length
    rw [hheads] at hlen
    rcases lastPkt_spec _ n sb.fresh hpkts hlen with ⟨l', hl', hlast⟩
    rw [List.getLast?_concat] at hlast
    obtain rfl := Option.some.inj hlast
    have hrec := h.linked (r ++ [z]) (by simp)
    rw [hl] at hrec
    rcases findEor_spec _ l sb.fresh hrec (h.record_length_le (by simp)) with
      ⟨res, hres, hany, hlast⟩
    rw [hn]
    dsimp only
    rw [hl', Option.bind_some, appendTo, hres, Option.bind_some, contents_concat,
      List.getLast?_concat, Option.any_some]
    have hiff : decide (Item.eor ∈ items sb.mbufs (r ++ [z])) = res.1 := by
      rw [hany, Bool.eq_iff_iff, decide_eq_true_iff]
      exact mem_items_eor
    rw [hiff]
    by_cases hmark : res.1 = true
    · rw [if_pos hmark, if_pos hmark, ← contents_concat]
      exact sbappendrecord_spec h hf
    rw [if_neg hmark, if_neg hmark, ← contents_concat]
    have hz := hlast (Bool.eq_false_iff.mpr hmark)
    rw [List.getLast?_concat] at hz
    have hzm : (sb.mbufs z).eor = false := by
      have hnone := Bool.eq_false_iff.mpr hmark
      rw [hany, List.any_eq_false] at hnone
      exact Bool.eq_false_iff.mpr (hnone z (by simp))
    rcases sbcompress_spec ((i, m) :: rest) sb _ (some res.2) false h.toChains
      (by rw [getLast_flatten, hz]) hf nofun (fun _ z' hz' => by
        rw [← Option.some.inj hz', ← Option.some.inj hz]
        exact hzm) with ⟨sb', recs', hrun, hc⟩
    refine ⟨sb', hrun, recs', ⟨hc.chains, hc.last ?_⟩, hc.contents, hc.fresh⟩
    unfold Ahead
    rw [if_neg hnil]
    exact h.last

/-- Two pointers agree only if there is no second record. -/
theorem Queue.one_record (h : Queue sb recs) (he : sb.mb = sb.lastrecord) : recs.length ≤ 1 := by
  rcases recs with _ | ⟨r₁, _ | ⟨r₂, rs⟩⟩
  · exact Nat.zero_le 1
  · exact Nat.le_refl 1
  exfalso
  rcases h.split_last (List.cons_ne_nil _ _) with ⟨init, r, z, hsplit⟩
  have hnodup := h.nodup
  have hlast := h.last
  have hpkts := h.pkts
  have hne := h.nonempty
  rw [hsplit] at hlast hpkts hnodup
  rw [List.getLast?_concat, Option.bind_some] at hlast
  cases init with
  | nil => exact nomatch congrArg List.length hsplit
  | cons r₀ init =>
    rw [List.cons_append, List.cons.injEq] at hsplit
    rw [← hsplit.1] at hpkts hnodup
    cases r₁ with
    | nil => exact hne [] List.mem_cons_self rfl
    | cons a r₁ =>
      have hmb : sb.mb = some a := hpkts.1
      rw [hmb, hlast] at he
      rw [List.cons_append, List.flatten_cons, List.nodup_append] at hnodup
      refine hnodup.2.2 a List.mem_cons_self a ?_ rfl
      rw [flatten_concat]
      exact List.mem_append_right _ (List.mem_of_mem_head? he.symm)

theorem any_demote :
    ((chain.map (fun e => (e.1, demote e.2))).map (fun e => e.2)).any (fun m => m.eor) = false := by
  rw [List.any_eq_false]
  intro m hm
  simp only [List.map_map, List.mem_map] at hm
  rcases hm with ⟨e, _, rfl⟩
  exact Bool.false_ne_true

theorem gather_demote : gather false ((chain.map (fun e => (e.1, demote e.2))).map (fun e => e.2)) =
      (chain.map (fun e => e.2)).flatMap Mbuf.bytes := by
  rw [gather, any_demote]
  show _ ++ [] = _
  rw [List.append_nil, List.map_map, List.flatMap_map, List.flatMap_map]
  rfl

theorem length_extendLast (X : Record) (h : rs.length ≤ 1) : (extendLast rs X).length ≤ 1 := by
  rcases List.eq_nil_or_concat rs with hnil | ⟨init, r, hr⟩
  · rw [hnil]
    show (if X = [] then [] else [X]).length ≤ 1
    split
    · exact Nat.zero_le 1
    · exact Nat.le_refl 1
  rw [hr, List.concat_eq_append] at h ⊢
  rw [extendLast_concat]
  simpa using h

/-- A chain goes on with the only record, without its marks. -/
theorem sbappendstream_spec (h : Queue sb recs) {chain : Chain} (hf : Fresh sb recs chain)
    (hne : chain ≠ []) (hone : sb.mb = sb.lastrecord) :
    ∃ sb', sbappendstreamLocked sb chain = some sb' ∧ Holds sb' sb.fresh
        (extendLast (contents sb.mbufs recs) ((chain.map (fun e => e.2)).flatMap Mbuf.bytes)) := by
  have hids : ids (chain.map (fun e => (e.1, demote e.2))) = ids chain := by
    rw [ids, ids, List.map_map]
    rfl
  rcases sbcompress_spec (chain.map (fun e => (e.1, demote e.2))) sb recs sb.mbtail false
    h.toChains h.tail ⟨by rw [hids]; exact hf.nodup, by rw [hids]; exact hf.below,
      by rw [hids]; exact hf.new⟩ (by rintro ⟨⟩)
    (fun hm => by
      rw [any_demote] at hm
      cases hm) with ⟨sb', recs', hrun, hc⟩
  refine ⟨{ sb' with lastrecord := sb'.mb }, ?_, recs', ⟨hc.chains.setLast _, ?_⟩, ?_, hc.fresh⟩
  · unfold sbappendstreamLocked
    rw [if_neg (fun he => he.elim hne (fun he => he hone)), hrun]
    rfl
  · have hlen := length_extendLast (contents sb.mbufs recs)
      (gather false ((chain.map (fun e => (e.1, demote e.2))).map (fun e => e.2)))
      (by rw [contents_length]; exact h.one_record hone)
    rw [← hc.contents, contents_length] at hlen
    have hpkts := hc.chains.pkts
    rcases recs' with _ | ⟨r, _ | ⟨r', rs⟩⟩
    · exact hpkts
    · cases r with
      | nil => exact absurd rfl (hc.chains.nonempty [] List.mem_cons_self)
      | cons a r => exact hpkts.1
    · exact absurd hlen (by simp)
  · rw [← gather_demote]
    exact hc.contents

end FreeBSDKern.Sockbuf
