import FreeBSDKern.Sockbuf.Model
import FreeBSDKern.Lib.Linked

/-!
# The Queue of a Socket Buffer

What the pointers and counters of a socket buffer have to do with the mbufs on it.
`Chains` is about a list of records, each a list of mbufs: the records are linked by
`m_nextpkt` and their mbufs by `m_next`, `sb_mbtail` is the last mbuf, and each counter
is the sum over all mbufs, in 32 bits. `Queue` adds that `sb_lastrecord` is the last
record. They are apart because `sb_lastrecord` is ahead of the queue while the first
mbufs go onto it.

What a record holds is a list of bytes, each with the type of its mbuf, and of marks,
which stand for `M_EOR`. Mbufs without data leave no trace in it, and neither do the
borders of mbufs.

## Main definitions

* `Chains`, `Queue`: The queue is in order.
* `Item`, `contents`: What the records hold.

## Theorems

* `Chains.link_first`, `Chains.link_last`, `Chains.replace_last`: Changes at the end of
  the queue.
* `Chains.push_record`: A new record at the end.
* `records_eq`: Following the pointers finds the queue.
-/

namespace FreeBSDKern.Sockbuf

open Lib Function

variable {sb : Sb} {recs : List (List Nat)}

/-- The sum of a counter over some mbufs. -/
def total (mbufs : Nat → Mbuf) (l : List Nat) (c : Counter) : Nat :=
  (l.map (fun i => (mbufs i).weight c)).sum

@[simp] theorem total_nil (mbufs : Nat → Mbuf) (c : Counter) : total mbufs [] c = 0 := rfl

@[simp] theorem total_cons (mbufs : Nat → Mbuf) (i : Nat) (l : List Nat) (c : Counter) :
    total mbufs (i :: l) c = (mbufs i).weight c + total mbufs l c := rfl

@[simp] theorem total_append (mbufs : Nat → Mbuf) (l l' : List Nat) (c : Counter) :
    total mbufs (l ++ l') c = total mbufs l c + total mbufs l' c := by
  simp [total]

variable {mbufs mbufs' : Nat → Mbuf} {z i : Nat} {r : List Nat} {init : List (List Nat)} {m : Mbuf}

theorem total_congr {l : List Nat} (h : ∀ i ∈ l, mbufs' i = mbufs i) (c : Counter) :
    total mbufs' l c = total mbufs l c := by
  unfold total
  congr 1
  exact List.map_congr_left (fun i hi => by rw [h i hi])

/-- An update outside a list is not seen in it. -/
theorem update_outside (mbufs : Nat → Mbuf) {l : List Nat} (hz : z ∉ l) (m : Mbuf) :
    ∀ i ∈ l, update mbufs z m i = mbufs i := by
  intro i hi
  refine update_of_ne (fun he => hz ?_) m mbufs
  rwa [← he]

inductive Item where
  | byte (type : Nat) (b : BitVec 8)
  | eor
  deriving DecidableEq

abbrev Record := List Item

def Mbuf.bytes (m : Mbuf) : Record := m.data.map (Item.byte m.type)

def mark (eor : Bool) : Record := if eor then [.eor] else []

def Mbuf.items (m : Mbuf) : Record := m.bytes ++ mark m.eor

def items (mbufs : Nat → Mbuf) (r : List Nat) : Record := r.flatMap (fun i => (mbufs i).items)

def contents (mbufs : Nat → Mbuf) (recs : List (List Nat)) : List Record := recs.map (items mbufs)

@[simp] theorem items_cons (mbufs : Nat → Mbuf) (i : Nat) (r : List Nat) :
    items mbufs (i :: r) = (mbufs i).items ++ items mbufs r := rfl

@[simp] theorem items_append (mbufs : Nat → Mbuf) (r r' : List Nat) :
    items mbufs (r ++ r') = items mbufs r ++ items mbufs r' := by
  simp [items]

@[simp] theorem items_singleton (mbufs : Nat → Mbuf) (i : Nat) :
    items mbufs [i] = (mbufs i).items := by
  simp [items]

theorem items_congr (h : ∀ i ∈ r, mbufs' i = mbufs i) : items mbufs' r = items mbufs r := by
  unfold items
  rw [List.flatMap_def, List.flatMap_def]
  congr 1
  exact List.map_congr_left (fun i hi => by rw [h i hi])

theorem contents_congr (h : ∀ i ∈ recs.flatten, mbufs' i = mbufs i) :
    contents mbufs' recs = contents mbufs recs :=
  List.map_congr_left (fun _ hr => items_congr (fun i hi =>
    h i (List.mem_flatten.mpr ⟨_, hr, hi⟩)))

structure Chains (sb : Sb) (recs : List (List Nat)) : Prop where
  nodup : recs.flatten.Nodup
  below : ∀ i ∈ recs.flatten, i < sb.fresh
  nonempty : ∀ r ∈ recs, r ≠ []
  linked : ∀ r ∈ recs, Linked some sb.next r.head? r none
  pkts : Linked some sb.nextpkt sb.mb (recs.filterMap List.head?) none
  tail : sb.mbtail = recs.flatten.getLast?
  counts : ∀ c, sb.counts c = BitVec.ofNat 32 (total sb.mbufs recs.flatten c)

structure Queue (sb : Sb) (recs : List (List Nat)) : Prop extends Chains sb recs where
  last : sb.lastrecord = recs.getLast?.bind List.head?

theorem empty_queue : Queue empty [] where
  nodup := List.nodup_nil
  below := nofun
  nonempty := nofun
  linked := nofun
  pkts := rfl
  tail := rfl
  counts := fun _ => rfl
  last := rfl

/-- A record of some mbufs has a first and a last one. -/
theorem Chains.split_last (h : Chains sb recs) (hne : recs ≠ []) :
    ∃ init r z, recs = init ++ [r ++ [z]] := by
  rcases List.eq_nil_or_concat recs with hnil | ⟨init, r, hr⟩
  · exact absurd hnil hne
  rw [List.concat_eq_append] at hr
  rcases List.eq_nil_or_concat r with hnil | ⟨r', z, hz⟩
  · exact absurd hnil (h.nonempty r (by rw [hr]; simp))
  · exact ⟨init, r', z, by rw [hr, hz, List.concat_eq_append]⟩

@[simp] theorem flatten_concat (init : List (List Nat)) (r : List Nat) :
    (init ++ [r]).flatten = init.flatten ++ r := by
  simp

/-- The heads of the mbufs are among the mbufs. -/
theorem mem_heads (h : i ∈ recs.filterMap List.head?) : i ∈ recs.flatten := by
  rcases List.mem_filterMap.mp h with ⟨r, hr, hi⟩
  exact List.mem_flatten.mpr ⟨r, hr, List.mem_of_mem_head? hi⟩

/-- The last mbuf gets other contents, which are counted. -/
theorem Chains.replace_last {counts : Counter → BitVec 32} (h : Chains sb (init ++ [r ++ [z]]))
    (hcounts : ∀ c, counts c + BitVec.ofNat 32 ((sb.mbufs z).weight c) =
      sb.counts c + BitVec.ofNat 32 (m.weight c)) :
    Chains { sb with mbufs := update sb.mbufs z m, counts := counts }
      (init ++ [r ++ [z]]) where
  nodup := h.nodup
  below := h.below
  nonempty := h.nonempty
  linked := h.linked
  pkts := h.pkts
  tail := h.tail
  counts := fun c => by
    have hnodup := h.nodup
    have hold := h.counts c
    rw [flatten_concat, ← List.append_assoc] at hnodup hold ⊢
    have hz : z ∉ init.flatten ++ r := by
      intro hin
      rw [List.nodup_append] at hnodup
      exact hnodup.2.2 z hin z (List.mem_singleton_self z) rfl
    have hpre : total (update sb.mbufs z m) (init.flatten ++ r) c =
        total sb.mbufs (init.flatten ++ r) c :=
      total_congr (update_outside sb.mbufs hz m) c
    rw [total_append, total_cons, total_nil, Nat.add_zero, BitVec.ofNat_add] at hold ⊢
    rw [hpre]
    dsimp only
    rw [update_self]
    have := hcounts c
    rw [hold] at this
    generalize BitVec.ofNat 32 ((sb.mbufs z).weight c) = w at this
    generalize BitVec.ofNat 32 (m.weight c) = w' at this ⊢
    generalize BitVec.ofNat 32 (total sb.mbufs (init.flatten ++ r) c) = t at this ⊢
    rw [add_right_comm] at this
    exact add_right_cancel this

/-- What that does to what the records hold. -/
theorem contents_replace_last (hnodup : (init ++ [r ++ [z]]).flatten.Nodup) (m : Mbuf) :
    contents (update mbufs z m) (init ++ [r ++ [z]]) =
      contents mbufs init ++ [items mbufs r ++ m.items] := by
  rw [flatten_concat, ← List.append_assoc, List.nodup_append] at hnodup
  have hz : ∀ i ∈ init.flatten ++ r, update mbufs z m i = mbufs i := fun i hi =>
    update_of_ne (hnodup.2.2 i hi z (List.mem_singleton_self z)) _ _
  have hinit : contents (update mbufs z m) init = contents mbufs init :=
    contents_congr (fun i hi => hz i (List.mem_append_left r hi))
  have hr : items (update mbufs z m) r = items mbufs r :=
    items_congr (fun i hi => hz i (List.mem_append_right _ hi))
  rw [contents, List.map_append, List.map_singleton, items_append, items_singleton, hr, update_self]
  exact congrArg (· ++ _) hinit

theorem linkMbuf_self (sb : Sb) (n : Option Nat) (i : Nat) (m : Mbuf) :
    (linkMbuf sb n i m).mbufs i = { m with eor := false } := by
  cases n with
  | none | some n => exact update_self ..

/-- The first mbuf of an empty queue. -/
theorem Chains.link_first (h : Chains sb []) (hi : i < sb.fresh) :
    Chains (linkMbuf sb none i m) [[i]] where
  nodup := List.nodup_singleton i
  below := fun j hj => by
    rw [List.mem_singleton.mp hj]
    exact hi
  nonempty := fun r hr => by
    rw [List.mem_singleton.mp hr]
    exact List.cons_ne_nil i []
  linked := fun r hr => by
    rw [List.mem_singleton.mp hr]
    exact ⟨rfl, update_self ..⟩
  pkts := ⟨rfl, update_self ..⟩
  tail := rfl
  counts := fun c => by
    have hc := h.counts c
    simp only [List.flatten_nil, total_nil] at hc
    show sb.counts c + _ = _
    rw [hc]
    simp [linkMbuf, sballoc, Mbuf.weight]

/-- A mbuf that is new behind the last one. -/
theorem Chains.link_last (h : Chains sb (init ++ [r ++ [z]])) (hi : i < sb.fresh)
    (hnew : i ∉ (init ++ [r ++ [z]]).flatten) :
    Chains (linkMbuf sb (some z) i m) (init ++ [r ++ [z] ++ [i]]) := by
  have hnodup := h.nodup
  rw [flatten_concat] at hnodup hnew
  have hz : z ∉ init.flatten := fun hin => by
    rw [List.nodup_append] at hnodup
    exact hnodup.2.2 z hin z (by simp) rfl
  have hheads : (init ++ [r ++ [z] ++ [i]]).filterMap List.head? =
      (init ++ [r ++ [z]]).filterMap List.head? := by
    rw [List.filterMap_append, List.filterMap_append]
    cases r with
    | nil => rfl
    | cons a r => rfl
  have hmbufs : ∀ j ∈ init.flatten ++ (r ++ [z]),
      update sb.mbufs i { m with eor := false } j = sb.mbufs j := update_outside sb.mbufs hnew _
  refine ⟨?_, ?_, ?_, ?_, ?_, ?_, ?_⟩
  · rw [flatten_concat, ← List.append_assoc, List.nodup_append]
    refine ⟨hnodup, List.nodup_singleton i, fun a ha b hb he => hnew ?_⟩
    rw [← List.mem_singleton.mp hb, ← he]
    exact ha
  · intro j hj
    rw [flatten_concat, ← List.append_assoc, List.mem_append] at hj
    rcases hj with hj | hj
    · exact h.below j (by rwa [flatten_concat])
    · rw [List.mem_singleton.mp hj]
      exact hi
  · intro r' hr'
    rcases List.mem_append.mp hr' with hr' | hr'
    · exact h.nonempty r' (List.mem_append_left _ hr')
    · rw [List.mem_singleton.mp hr']
      simp
  · intro r' hr'
    rcases List.mem_append.mp hr' with hr' | hr'
    · have hlink := h.linked r' (List.mem_append_left _ hr')
      have hsub : ∀ j ∈ r', j ∈ init.flatten := fun j hj => List.mem_flatten.mpr ⟨r', hr', hj⟩
      exact (hlink.update (fun hin => hz (hsub z hin)) _).update
        (fun hin => hnew (List.mem_append_left _ (hsub i hin))) _
    rw [List.mem_singleton.mp hr']
    have hlink := h.linked (r ++ [z]) (by simp)
    have hhead : (r ++ [z] ++ [i]).head? = (r ++ [z]).head? := by
      cases r with
      | nil | cons a r => rfl
    rw [hhead]
    refine hlink.snoc (fun hin => ?_) (fun hin => hnew (List.mem_append_right _ hin))
    rw [List.nodup_append, List.nodup_append] at hnodup
    exact hnodup.2.1.2.2 z hin z (List.mem_singleton_self z) rfl
  · rw [hheads]
    exact h.pkts.update (fun hin => hnew (by
      have := mem_heads hin
      rwa [flatten_concat] at this)) _
  · show some i = _
    rw [flatten_concat, ← List.append_assoc, List.getLast?_concat]
  intro c
  have hold := h.counts c
  rw [flatten_concat] at hold
  show sb.counts c + _ = BitVec.ofNat 32 (total (update sb.mbufs i _) _ c)
  rw [flatten_concat, ← List.append_assoc, total_append, total_congr hmbufs, total_cons, total_nil,
    Nat.add_zero, BitVec.ofNat_add, hold, update_self]
  rfl

theorem contents_link_last (hnew : i ∉ (init ++ [r ++ [z]]).flatten) :
    contents (linkMbuf sb (some z) i m).mbufs (init ++ [r ++ [z] ++ [i]]) =
      contents sb.mbufs init ++ [items sb.mbufs (r ++ [z]) ++ m.bytes] := by
  rw [flatten_concat] at hnew
  have hmbufs : ∀ j ∈ init.flatten ++ (r ++ [z]),
      (linkMbuf sb (some z) i m).mbufs j = sb.mbufs j := update_outside sb.mbufs hnew _
  rw [contents, List.map_append, List.map_singleton, items_append,
    items_congr (fun j hj => hmbufs j (List.mem_append_right _ hj)), items_singleton]
  have hinit : contents (linkMbuf sb (some z) i m).mbufs init = contents sb.mbufs init :=
    contents_congr (fun j hj => hmbufs j (List.mem_append_left _ hj))
  have hi : ((linkMbuf sb (some z) i m).mbufs i).items = m.bytes := by
    show (update sb.mbufs i _ i).items = _
    rw [update_self]
    exact List.append_nil _
  rw [hi]
  exact congrArg (· ++ _) hinit

/-- The numbers of a chain. -/
def ids (chain : Chain) : List Nat := chain.map (fun e => e.1)

@[simp] theorem ids_cons (i : Nat) (m : Mbuf) (chain : Chain) :
    ids ((i, m) :: chain) = i :: ids chain := rfl

/-- What a chain holds as it is. -/
def gatherItems (chain : Chain) : Record := chain.flatMap (fun e => e.2.items)

/-- The mbufs of a chain are in place, linked to each other and counted. -/
structure Installed (sb : Sb) (chain : Chain) (sb' : Sb) : Prop where
  mbufs : ∀ j ∉ ids chain, sb'.mbufs j = sb.mbufs j
  next : ∀ j ∉ ids chain, sb'.next j = sb.next j
  nextpkt : ∀ j ∉ ids chain, sb'.nextpkt j = sb.nextpkt j
  items : items sb'.mbufs (ids chain) = gatherItems chain
  linked : Linked some sb'.next (ids chain).head? (ids chain) none
  pkt : ∀ j ∈ ids chain, sb'.nextpkt j = none
  counts : ∀ c, sb'.counts c = sb.counts c + BitVec.ofNat 32 (total sb'.mbufs (ids chain) c)
  mb : sb'.mb = sb.mb
  lastrecord : sb'.lastrecord = sb.lastrecord
  fresh : sb'.fresh = sb.fresh

theorem install_spec (sb : Sb) :
    ∀ chain : Chain, (ids chain).Nodup → Installed sb chain (install sb chain) := by
  intro chain
  induction chain with
  | nil =>
    intro _
    exact ⟨fun _ _ => rfl, fun _ _ => rfl, fun _ _ => rfl, rfl, rfl, nofun, fun c => by
      simp [install, ids], rfl, rfl, rfl⟩
  | cons e rest ih =>
    intro hnodup
    rcases e with ⟨i, m⟩
    rw [ids_cons, List.nodup_cons] at hnodup
    have h := ih hnodup.2
    have hne : ∀ j ∉ ids ((i, m) :: rest), j ≠ i ∧ j ∉ ids rest := fun j hj => by
      rwa [ids_cons, List.mem_cons, not_or] at hj
    have hmbufs := update_outside (install sb rest).mbufs hnodup.1 m
    refine ⟨fun j hj => ?_, fun j hj => ?_, fun j hj => ?_, ?_, ?_, fun j hj => ?_, fun c => ?_,
      h.mb, h.lastrecord, h.fresh⟩
    · exact (update_of_ne (hne j hj).1 _ _).trans (h.mbufs j (hne j hj).2)
    · exact (update_of_ne (hne j hj).1 _ _).trans (h.next j (hne j hj).2)
    · exact (update_of_ne (hne j hj).1 _ _).trans (h.nextpkt j (hne j hj).2)
    · rw [ids_cons, items_cons]
      show (update (install sb rest).mbufs i m i).items ++
        Sockbuf.items (update (install sb rest).mbufs i m) (ids rest) = _
      rw [update_self, items_congr hmbufs, h.items]
      rfl
    · have hhead : rest.head?.map (fun e => e.1) = (ids rest).head? := by
        rw [ids, List.head?_map]
      show Linked some (update (install sb rest).next i _) (some i) (i :: ids rest) none
      rw [hhead]
      exact h.linked.push hnodup.1
    · rcases List.mem_cons.mp hj with hj | hj
      · rw [hj]
        exact update_self ..
      · refine (update_of_ne (fun he => hnodup.1 ?_) _ _).trans (h.pkt j hj)
        rwa [← he]
    show (install sb rest).counts c + _ =
      _ + BitVec.ofNat 32 (total (update (install sb rest).mbufs i m) (i :: ids rest) c)
    rw [h.counts, total_cons, update_self, total_congr hmbufs, BitVec.ofNat_add,
      add_assoc, add_comm (BitVec.ofNat 32 (m.weight c))]

/-- The numbers of a chain that is handed over. -/
structure Fresh (sb : Sb) (recs : List (List Nat)) (chain : Chain) : Prop where
  nodup : (ids chain).Nodup
  below : ∀ i ∈ ids chain, i < sb.fresh
  new : ∀ i ∈ ids chain, i ∉ recs.flatten

theorem Fresh.tail {e : Nat × Mbuf} {chain : Chain} (h : Fresh sb recs (e :: chain)) :
    Fresh sb recs chain where
  nodup := (List.nodup_cons.mp h.nodup).2
  below := fun i hi => h.below i (List.mem_cons_of_mem _ hi)
  new := fun i hi => h.new i (List.mem_cons_of_mem _ hi)

/-- A chain goes behind the queue as a record of its own. -/
theorem Queue.push_record (h : Queue sb recs) {rest : Chain} (hf : Fresh sb recs ((i, m) :: rest)) :
    Queue (appendChain sb ((i, m) :: rest)) (recs ++ [ids ((i, m) :: rest)]) ∧
      contents (appendChain sb ((i, m) :: rest)).mbufs (recs ++ [ids ((i, m) :: rest)]) =
        contents sb.mbufs recs ++ [gatherItems ((i, m) :: rest)] := by
  have hin := install_spec sb ((i, m) :: rest) hf.nodup
  have hi : i ∈ ids ((i, m) :: rest) := List.mem_cons_self
  have hout : ∀ j ∈ recs.flatten, j ∉ ids ((i, m) :: rest) := fun j hj hc => hf.new j hc hj
  -- The link of the last record is all that changes besides.
  have hsame : (appendChain sb ((i, m) :: rest)).mbufs = (install sb ((i, m) :: rest)).mbufs ∧
      (appendChain sb ((i, m) :: rest)).next = (install sb ((i, m) :: rest)).next ∧
      (appendChain sb ((i, m) :: rest)).counts = (install sb ((i, m) :: rest)).counts ∧
      (appendChain sb ((i, m) :: rest)).fresh = sb.fresh ∧
      (appendChain sb ((i, m) :: rest)).lastrecord = some i := by
    unfold appendChain sblinkrecord
    cases (install sb ((i, m) :: rest)).lastrecord with
    | none | some l => exact ⟨rfl, rfl, rfl, hin.fresh, rfl⟩
  rcases hsame with ⟨hmb, hnext, hcounts, hfresh, hlast⟩
  have hmbufs : ∀ j ∈ recs.flatten, (appendChain sb ((i, m) :: rest)).mbufs j = sb.mbufs j :=
    fun j hj => by rw [hmb]; exact hin.mbufs j (hout j hj)
  refine ⟨⟨⟨?_, ?_, ?_, ?_, ?_, ?_, ?_⟩, ?_⟩, ?_⟩
  · rw [flatten_concat, List.nodup_append]
    exact ⟨h.nodup, hf.nodup, fun a ha b hb he => hf.new b hb (he ▸ ha)⟩
  · intro j hj
    rw [flatten_concat, List.mem_append] at hj
    rw [hfresh]
    exact hj.elim (h.below j) (hf.below j)
  · intro r hr
    rcases List.mem_append.mp hr with hr | hr
    · exact h.nonempty r hr
    · rw [List.mem_singleton.mp hr]
      exact List.cons_ne_nil _ _
  · intro r hr
    rw [hnext]
    rcases List.mem_append.mp hr with hr | hr
    · exact (h.linked r hr).congr (fun j hj => hin.next j (hout j (List.mem_flatten.mpr ⟨r, hr, hj⟩)))
    · rw [List.mem_singleton.mp hr]
      exact hin.linked
  · have hpkts := h.pkts.congr (fun j hj => hin.nextpkt j (hout j (mem_heads hj)))
    rw [List.filterMap_append]
    show Linked some _ _ (_ ++ [i]) none
    rcases List.eq_nil_or_concat recs with hnil | ⟨init, r, hr⟩
    · have hl : (install sb ((i, m) :: rest)).lastrecord = none := by
        rw [hin.lastrecord, h.last, hnil]
        rfl
      unfold appendChain sblinkrecord
      rw [hl, hnil]
      exact ⟨rfl, hin.pkt i hi⟩
    rw [List.concat_eq_append] at hr
    cases r with
    | nil => exact absurd rfl (h.nonempty [] (by rw [hr]; simp))
    | cons l r =>
      have hl : (install sb ((i, m) :: rest)).lastrecord = some l := by
        rw [hin.lastrecord, h.last, hr, List.getLast?_concat]
        rfl
      have hheads : recs.filterMap List.head? = init.filterMap List.head? ++ [l] := by
        rw [hr, List.filterMap_append]
        rfl
      have hnodup : l ∉ init.filterMap List.head? := fun hc => by
        have hn := h.nodup
        rw [hr, flatten_concat, List.nodup_append] at hn
        exact hn.2.2 l (mem_heads hc) l List.mem_cons_self rfl
      have hne : i ∉ init.filterMap List.head? ++ [l] := fun hc => by
        rw [← hheads] at hc
        exact hf.new i hi (mem_heads hc)
      rw [hheads] at hpkts ⊢
      unfold appendChain sblinkrecord
      rw [hl]
      dsimp only
      rw [hin.mb]
      refine (hpkts.snoc hnodup hne).congr (fun j _ => ?_)
      by_cases hj : j = i
      · rw [hj, update_self, update_of_ne, hin.pkt i hi]
        exact fun he => hne (he ▸ List.mem_append_cons_self)
      · rw [update_of_ne hj]
  · rw [flatten_concat, List.getLast?_append_of_ne_nil _ (by simp)]
    show (((i, m) :: rest).getLast?).map (fun e => e.1) = _
    rw [ids, List.getLast?_map]
  · intro c
    rw [hcounts, hin.counts, h.counts, flatten_concat, total_append, total_congr hmbufs, hmb,
      BitVec.ofNat_add]
  · rw [hlast, List.getLast?_concat]
    rfl
  · rw [contents, List.map_append, List.map_singleton]
    have hold : contents (appendChain sb ((i, m) :: rest)).mbufs recs = contents sb.mbufs recs :=
      contents_congr hmbufs
    rw [hmb] at hold ⊢
    rw [hin.items]
    exact congrArg (· ++ _) hold

/-- The mbufs that are met from a pointer on. -/
def follow (next : Nat → Option Nat) : Nat → Option Nat → List Nat
  | 0, _ => []
  | fuel + 1, p =>
    match p with
    | none => []
    | some i => i :: follow next fuel (next i)

/-- The queue as the pointers have it. -/
def records (sb : Sb) : List (List Nat) :=
  (follow sb.nextpkt sb.fresh sb.mb).map (fun i => follow sb.next sb.fresh (some i))

theorem follow_eq {next : Nat → Option Nat} :
    ∀ (l : List Nat) (fuel : Nat) (p : Option Nat), Linked some next p l none → l.length ≤ fuel →
      follow next fuel p = l := by
  intro l
  induction l with
  | nil =>
    intro fuel p h _
    rw [linked_nil] at h
    rw [h]
    cases fuel with
    | zero => rfl
    | succ fuel => rfl
  | cons i l ih =>
    intro fuel p h hlen
    cases fuel with
    | zero => cases hlen
    | succ fuel =>
      rw [h.1, follow, ih fuel _ h.2 (Nat.le_of_succ_le_succ hlen)]

section

variable (h : Chains sb recs)
include h

/-- There are no more mbufs on the queue than were handed over. -/
theorem Chains.length_le : recs.flatten.length ≤ sb.fresh := by
  have hsub : recs.flatten ⊆ List.range sb.fresh := fun i hi => List.mem_range.mpr (h.below i hi)
  have hle := (h.nodup.subperm hsub).length_le
  rwa [List.length_range] at hle

theorem Chains.record_length_le (hr : r ∈ recs) : r.length ≤ sb.fresh :=
  (List.sublist_flatten_of_mem hr).length_le.trans h.length_le

theorem Chains.count_le : recs.length ≤ recs.flatten.length := by
  have hpos := h.nonempty
  clear h
  induction recs with
  | nil => exact Nat.le_refl 0
  | cons r recs ih =>
    have hr := List.length_pos_iff.mpr (hpos r List.mem_cons_self)
    have hrest := ih (fun r' hr' => hpos r' (List.mem_cons_of_mem r hr'))
    rw [List.flatten_cons, List.length_append, List.length_cons]
    omega

theorem Chains.heads_length : (recs.filterMap List.head?).length ≤ sb.fresh :=
  (List.length_filterMap_le _ _).trans (h.count_le.trans h.length_le)

theorem records_eq : records sb = recs := by
  unfold records
  rw [follow_eq _ _ _ h.pkts h.heads_length, List.map_filterMap]
  have hself : ∀ r ∈ recs, r.head?.map (fun i => follow sb.next sb.fresh (some i)) = some r := by
    intro r hr
    cases r with
    | nil => exact absurd rfl (h.nonempty [] hr)
    | cons i r =>
      show some (follow sb.next sb.fresh (List.head? (i :: r))) = _
      rw [follow_eq _ _ _ (h.linked _ hr) (h.record_length_le hr)]
  rw [List.filterMap_congr hself, List.filterMap_some]

end

end FreeBSDKern.Sockbuf
