import FreeBSDKern.Lib.Buckets
import FreeBSDKern.Vmem.Fit

/-!
# Free Lists, Hash Chains and Counters

Every tag of the queue that is free is on the free list for its size, every busy
one on the hash chain for its address, and the counters of the arena are those
of the busy tags. While an operation works on a tag it is on neither kind of
list and not counted. `Listed vm S` says that this is so for the tags of `S` and
that all others are where they should be; each small operation moves one tag
into `S` or out of it.

## Main definitions

* `tagsOf`: The tags of a type that are not worked on.
* `Listed`: All of these are where they should be.

## Theorems

* `Listed.remfree`, `Listed.rembusy`: Work on a tag begins.
* `Listed.insfree`, `Listed.insbusy`: Work on a tag ends.
* `Listed.newTag`, `Listed.remseg`: Tags come and go.
* `vmemRehash_listed`: A new hash table.
-/

namespace FreeBSDKern.Vmem

open Lib Function

/-- The tags of a type that are not worked on. -/
def tagsOf (vm : Arena) (S : Finset Nat) (type : BtType) : Finset Nat :=
  vm.seglist.toFinset.filter (fun t => t ∉ S ∧ (vm.tag t).type = type)

/-- All tags but those worked on are where they should be. -/
structure Listed (vm : Arena) (S : Finset Nat) : Prop where
  free : Bucketed vm.freelist (· ∈ tagsOf vm S .free)
    (fun t => btFreeheadTofree vm (vm.tag t).size)
  busy : Bucketed vm.hashlist (· ∈ tagsOf vm S .busy)
    (fun t => btHashhead vm.hashsize (vm.tag t).start)
  inuse : vm.inuse = (∑ t ∈ tagsOf vm S .busy, (vm.tag t).size) % 2 ^ 64
  nbusytag : vm.nbusytag = (tagsOf vm S .busy).card

variable {vm : Arena} {S : Finset Nat} {type : BtType} {x : Nat}

theorem mem_tagsOf {t : Nat} :
    t ∈ tagsOf vm S type ↔ t ∈ vm.seglist ∧ t ∉ S ∧ (vm.tag t).type = type := by
  rw [tagsOf, Finset.mem_filter, List.mem_toFinset]

/-- Work on a tag of another type does not matter. -/
theorem tagsOf_insert_of_ne (vm : Arena) (hx : (vm.tag x).type ≠ type) :
    tagsOf vm (insert x S) type = tagsOf vm S type := by
  ext t
  rw [mem_tagsOf, mem_tagsOf, Finset.mem_insert, not_or]
  refine and_congr_right (fun _ => and_congr_left (fun ht => and_iff_right ?_))
  rintro rfl
  exact hx ht

theorem tagsOf_insert (vm : Arena) : tagsOf vm (insert x S) type = (tagsOf vm S type).erase x := by
  ext t
  rw [Finset.mem_erase, mem_tagsOf, mem_tagsOf, Finset.mem_insert, not_or]
  constructor
  · rintro ⟨hseg, ⟨hne, hS⟩, ht⟩
    exact ⟨hne, hseg, hS, ht⟩
  · rintro ⟨hne, hseg, hS, ht⟩
    exact ⟨hseg, ⟨hne, hS⟩, ht⟩

theorem tagsOf_erase (vm : Arena) (hseg : x ∈ vm.seglist) (hx : (vm.tag x).type = type) :
    tagsOf vm (S.erase x) type = insert x (tagsOf vm S type) := by
  ext t
  rw [Finset.mem_insert, mem_tagsOf, mem_tagsOf, Finset.mem_erase, not_and]
  by_cases htx : t = x
  · subst htx
    exact ⟨fun _ => Or.inl rfl, fun _ => ⟨hseg, fun hne => absurd rfl hne, hx⟩⟩
  rw [or_iff_right htx]
  refine and_congr_right (fun _ => and_congr_left (fun _ => ?_))
  exact ⟨fun h => h htx, fun h _ => h⟩

theorem tagsOf_erase_of_ne (vm : Arena) (hx : (vm.tag x).type ≠ type) :
    tagsOf vm (S.erase x) type = tagsOf vm S type := by
  rw [← tagsOf_insert_of_ne vm hx, ← tagsOf_insert_of_ne vm (S := S) hx]
  by_cases hS : x ∈ S
  · rw [Finset.insert_erase hS, Finset.insert_eq_of_mem hS]
  · rw [Finset.erase_eq_of_notMem hS]

section

variable (h : Listed vm S)
include h

theorem Listed.remfree (hx : (vm.tag x).type = .free) :
    Listed (btRemfree vm x) (insert x S) := by
  have hbusy : tagsOf (btRemfree vm x) (insert x S) .busy = tagsOf vm S .busy :=
    tagsOf_insert_of_ne vm (by rw [hx]; decide)
  refine ⟨(h.free.erase x).congr (fun t => ?_) (fun _ _ => rfl), ?_, ?_, ?_⟩
  · change t ∈ tagsOf vm (insert x S) .free ↔ _
    rw [tagsOf_insert _, Finset.mem_erase, and_comm]
  · rw [hbusy]
    exact h.busy
  · rw [hbusy]
    exact h.inuse
  · rw [hbusy]
    exact h.nbusytag

theorem Listed.rembusy (hseg : x ∈ vm.seglist) (hS : x ∉ S)
    (hx : (vm.tag x).type = .busy) (hsize : (vm.tag x).size < 2 ^ 64) :
    Listed (btRembusy vm x) (insert x S) := by
  have hmem : x ∈ tagsOf vm S .busy := mem_tagsOf.mpr ⟨hseg, hS, hx⟩
  have hfree : tagsOf (btRembusy vm x) (insert x S) .free = tagsOf vm S .free :=
    tagsOf_insert_of_ne vm (by rw [hx]; decide)
  have hbusy : tagsOf (btRembusy vm x) (insert x S) .busy = (tagsOf vm S .busy).erase x :=
    tagsOf_insert vm
  refine ⟨?_, (h.busy.erase x).congr (fun t => ?_) (fun _ _ => rfl), ?_, ?_⟩
  · rw [hfree]
    exact h.free
  · rw [hbusy, Finset.mem_erase, and_comm]
  · rw [hbusy]
    change wsub vm.inuse (vm.tag x).size =
      (∑ t ∈ (tagsOf vm S .busy).erase x, (vm.tag t).size) % 2 ^ 64
    rw [h.inuse, ← Finset.add_sum_erase _ _ hmem, wsub, Nat.mod_add_mod,
      show (vm.tag x).size + ∑ t ∈ (tagsOf vm S .busy).erase x, (vm.tag t).size +
        (2 ^ 64 - (vm.tag x).size) = ∑ t ∈ (tagsOf vm S .busy).erase x, (vm.tag t).size + 2 ^ 64 by
          omega, Nat.add_mod_right]
  · rw [hbusy, Finset.card_erase_of_mem hmem, ← h.nbusytag]
    rfl

/-- A tag that is worked on may be written. -/
theorem Listed.setTag (hx : x ∈ S) (b : Bt) : Listed (setTag vm x b) S := by
  have hkeep : ∀ t, t ∉ S → update vm.tag x b t = vm.tag t := by
    intro t ht
    refine update_of_ne ?_ _ _
    rintro rfl
    exact ht hx
  have hset : ∀ type, tagsOf (Vmem.setTag vm x b) S type = tagsOf vm S type := by
    intro type
    ext t
    rw [mem_tagsOf, mem_tagsOf]
    refine and_congr_right (fun _ => and_congr_right (fun hS => ?_))
    change (update vm.tag x b t).type = type ↔ _
    rw [hkeep t hS]
  refine ⟨h.free.congr (fun t => by rw [hset]) (fun t ht => ?_),
    h.busy.congr (fun t => by rw [hset]) (fun t ht => ?_), ?_, ?_⟩
  · change btFreeheadTofree vm (update vm.tag x b t).size = _
    rw [hkeep t (mem_tagsOf.mp ht).2.1]
  · change btHashhead vm.hashsize (update vm.tag x b t).start = _
    rw [hkeep t (mem_tagsOf.mp ht).2.1]
  · rw [hset]
    refine h.inuse.trans ?_
    congr 1
    refine Finset.sum_congr rfl (fun t ht => ?_)
    change _ = (update vm.tag x b t).size
    rw [hkeep t (mem_tagsOf.mp ht).2.1]
  · rw [hset]
    exact h.nbusytag

theorem Listed.insfree (hseg : x ∈ vm.seglist) (hS : x ∈ S)
    (hx : (vm.tag x).type = .free) : Listed (btInsfree vm x) (S.erase x) := by
  have hnot : x ∉ tagsOf vm S .free := fun hin => (mem_tagsOf.mp hin).2.1 hS
  have hbusy : tagsOf (btInsfree vm x) (S.erase x) .busy = tagsOf vm S .busy :=
    tagsOf_erase_of_ne vm (by rw [hx]; decide)
  refine ⟨(h.free.push hnot).congr (fun t => ?_) (fun _ _ => rfl), ?_, ?_, ?_⟩
  · change t ∈ tagsOf vm (S.erase x) .free ↔ _
    rw [tagsOf_erase _ hseg hx, Finset.mem_insert, or_comm]
  · rw [hbusy]
    exact h.busy
  · rw [hbusy]
    exact h.inuse
  · rw [hbusy]
    exact h.nbusytag

theorem Listed.insbusy (hseg : x ∈ vm.seglist) (hS : x ∈ S)
    (hx : (vm.tag x).type = .busy) : Listed (btInsbusy vm x) (S.erase x) := by
  have hnot : x ∉ tagsOf vm S .busy := fun hin => (mem_tagsOf.mp hin).2.1 hS
  have hfree : tagsOf (btInsbusy vm x) (S.erase x) .free = tagsOf vm S .free :=
    tagsOf_erase_of_ne vm (by rw [hx]; decide)
  have hbusy : tagsOf (btInsbusy vm x) (S.erase x) .busy = insert x (tagsOf vm S .busy) :=
    tagsOf_erase vm hseg hx
  refine ⟨?_, (h.busy.push hnot).congr (fun t => ?_) (fun _ _ => rfl), ?_, ?_⟩
  · rw [hfree]
    exact h.free
  · rw [hbusy, Finset.mem_insert, or_comm]
  · rw [hbusy, Finset.sum_insert hnot]
    change wadd vm.inuse (vm.tag x).size = _
    rw [h.inuse, wadd, Nat.mod_add_mod, Nat.add_comm]
    rfl
  · rw [hbusy, Finset.card_insert_of_notMem hnot, ← h.nbusytag]
    rfl

/-- The tags of a queue with one more tag, which is worked on. -/
theorem Listed.newTag (b : Bt) (l : List Nat) (hfresh : vm.nextTag ∉ vm.seglist)
    (hl : ∀ t, t ∈ l ↔ t = vm.nextTag ∨ t ∈ vm.seglist) :
    Listed { btAlloc vm b with seglist := l } (insert vm.nextTag S) := by
  have hkeep : ∀ t, t ∈ vm.seglist → update vm.tag vm.nextTag b t = vm.tag t := by
    intro t ht
    refine update_of_ne ?_ _ _
    rintro rfl
    exact hfresh ht
  have hset : ∀ type, tagsOf { btAlloc vm b with seglist := l } (insert vm.nextTag S) type =
      tagsOf vm S type := by
    intro type
    ext t
    rw [mem_tagsOf, mem_tagsOf, hl, Finset.mem_insert, not_or]
    change _ ∧ _ ∧ (update vm.tag vm.nextTag b t).type = type ↔ _
    constructor
    · rintro ⟨ht, ⟨hne, hS⟩, htype⟩
      have ht' := ht.resolve_left hne
      exact ⟨ht', hS, by rwa [hkeep t ht'] at htype⟩
    rintro ⟨ht, hS, htype⟩
    refine ⟨Or.inr ht, ⟨?_, hS⟩, by rwa [hkeep t ht]⟩
    rintro rfl
    exact hfresh ht
  refine ⟨h.free.congr (fun t => by rw [hset]) (fun t ht => ?_),
    h.busy.congr (fun t => by rw [hset]) (fun t ht => ?_), ?_, ?_⟩
  · change btFreeheadTofree vm (update vm.tag vm.nextTag b t).size = _
    rw [hkeep t (mem_tagsOf.mp ht).1]
  · change btHashhead vm.hashsize (update vm.tag vm.nextTag b t).start = _
    rw [hkeep t (mem_tagsOf.mp ht).1]
  · rw [hset]
    refine h.inuse.trans ?_
    congr 1
    refine Finset.sum_congr rfl (fun t ht => ?_)
    change _ = (update vm.tag vm.nextTag b t).size
    rw [hkeep t (mem_tagsOf.mp ht).1]
  · rw [hset]
    exact h.nbusytag

/-- A tag that is worked on leaves the queue. -/
theorem Listed.remseg (hx : x ∈ S) (hnodup : vm.seglist.Nodup) :
    Listed (btRemseg vm x) (S.erase x) := by
  have hset : ∀ type, tagsOf (btRemseg vm x) (S.erase x) type = tagsOf vm S type := by
    intro type
    ext t
    rw [mem_tagsOf, mem_tagsOf, Finset.mem_erase, not_and]
    change t ∈ vm.seglist.erase x ∧ _ ↔ _
    rw [hnodup.mem_erase_iff]
    constructor
    · rintro ⟨⟨hne, ht⟩, hS, htype⟩
      exact ⟨ht, hS hne, htype⟩
    rintro ⟨ht, hS, htype⟩
    refine ⟨⟨?_, ht⟩, fun _ => hS, htype⟩
    rintro rfl
    exact hS hx
  refine ⟨h.free.congr (fun t => by rw [hset]) (fun _ _ => rfl),
    h.busy.congr (fun t => by rw [hset]) (fun _ _ => rfl), ?_, ?_⟩
  · rw [hset]
    exact h.inuse
  · rw [hset]
    exact h.nbusytag

end

/-- Moving tags to the new table, one by one. -/
theorem rehash_fold (L : List Nat) : ∀ (vm : Arena) (D : Nat → Prop),
    Bucketed vm.hashlist D (fun t => btHashhead vm.hashsize (vm.tag t).start) →
    (∀ t ∈ L, ¬ D t) → L.Nodup → (L ≠ [] → 0 < vm.nbusytag) → vm.inuse < 2 ^ 64 →
    (∀ t ∈ L, (vm.tag t).size ≤ 2 ^ 64) →
    ∃ table, L.foldl (fun vm bt => btInsbusy (btRembusy vm bt) bt) vm =
        { vm with hashlist := table } ∧
      Bucketed table (fun t => D t ∨ t ∈ L)
        (fun t => btHashhead vm.hashsize (vm.tag t).start) := by
  induction L with
  | nil =>
    intro vm D h _ _ _ _ _
    exact ⟨vm.hashlist, rfl, h.congr (fun t => by simp) (fun _ _ => rfl)⟩
  | cons x L ih =>
    intro vm D h hnot hnodup hpos hinuse hsize
    rw [List.nodup_cons] at hnodup
    have hx := hnot x List.mem_cons_self
    -- The counters are as before once the tag is in the new table.
    have hcount : vm.nbusytag - 1 + 1 = vm.nbusytag :=
      Nat.sub_add_cancel (hpos (List.cons_ne_nil x L))
    have hback : wadd (wsub vm.inuse (vm.tag x).size) (vm.tag x).size = vm.inuse := by
      have hle := hsize x List.mem_cons_self
      rw [wadd, wsub, Nat.mod_add_mod, Nat.add_assoc, Nat.sub_add_cancel hle, Nat.add_mod_right,
        Nat.mod_eq_of_lt hinuse]
    have hkept : Bucketed (fun i => (vm.hashlist i).erase x) D
        (fun t => btHashhead vm.hashsize (vm.tag t).start) := by
      refine (h.erase x).congr (fun t => (and_iff_left_of_imp (fun ht => ?_)).symm)
        (fun _ _ => rfl)
      rintro rfl
      exact hx ht
    have hone := hkept.push hx
    have hstep : btInsbusy (btRembusy vm x) x = { vm with
        hashlist := update (fun i => (vm.hashlist i).erase x)
          (btHashhead vm.hashsize (vm.tag x).start)
          (x :: (vm.hashlist (btHashhead vm.hashsize (vm.tag x).start)).erase x) } := by
      change Arena.mk _ _ _ _ _ _ _ _ _ _ _ (vm.nbusytag - 1 + 1)
        (wadd (wsub vm.inuse (vm.tag x).size) (vm.tag x).size) _ = _
      rw [hcount, hback]
      rfl
    have hnot' : ∀ t ∈ L, ¬ (D t ∨ t = x) := by
      rintro t ht (hD | rfl)
      · exact hnot t (List.mem_cons_of_mem x ht) hD
      · exact hnodup.1 ht
    rcases ih { vm with
        hashlist := update (fun i => (vm.hashlist i).erase x)
          (btHashhead vm.hashsize (vm.tag x).start)
          (x :: (vm.hashlist (btHashhead vm.hashsize (vm.tag x).start)).erase x) } _ hone hnot'
      hnodup.2 (fun _ => hpos (List.cons_ne_nil x L)) hinuse
      (fun t ht => hsize t (List.mem_cons_of_mem x ht)) with ⟨table, hfold, htable⟩
    refine ⟨table, ?_, htable.congr (fun t => ?_) (fun _ _ => rfl)⟩
    · rw [List.foldl_cons, hstep]
      exact hfold
    · rw [List.mem_cons, or_assoc]

/-- A new hash table holds the same tags. -/
theorem vmemRehash_listed (h : Listed vm ∅) (hsize : 0 < vm.hashsize)
    (hbound : ∀ t ∈ vm.seglist, (vm.tag t).size ≤ 2 ^ 64) (n : Nat) :
    ∃ table, vmemRehash vm n = { vm with hashlist := table, hashsize := n } ∧
      Listed (vmemRehash vm n) ∅ := by
  have hmem : ∀ t, t ∈ (List.range vm.hashsize).flatMap vm.hashlist ↔ t ∈ tagsOf vm ∅ .busy := by
    intro t
    rw [List.mem_flatMap]
    constructor
    · rintro ⟨i, -, ht⟩
      exact ((h.busy.mem i t).mp ht).1
    · intro ht
      exact ⟨_, List.mem_range.mpr (Nat.mod_lt _ hsize), (h.busy.mem _ t).mpr ⟨ht, rfl⟩⟩
  have hnodup : ((List.range vm.hashsize).flatMap vm.hashlist).Nodup := by
    refine List.nodup_flatMap.mpr ⟨fun i _ => h.busy.nodup i, ?_⟩
    refine List.Pairwise.imp (fun {i j} hij => ?_) List.nodup_range
    intro t hi hj
    exact hij (((h.busy.mem i t).mp hi).2.symm.trans ((h.busy.mem j t).mp hj).2)
  have hpos : (List.range vm.hashsize).flatMap vm.hashlist ≠ [] → 0 < vm.nbusytag := by
    intro hne
    rcases List.exists_mem_of_ne_nil _ hne with ⟨t, ht⟩
    rw [h.nbusytag, Finset.card_pos]
    exact ⟨t, (hmem t).mp ht⟩
  rcases rehash_fold _ { vm with hashlist := fun _ => [], hashsize := n } (fun _ => False)
    ⟨fun i t => by simp, fun i => List.nodup_nil⟩ (fun _ _ hno => hno) hnodup hpos
    (h.inuse ▸ Nat.mod_lt _ (by decide))
    (fun t ht => hbound t (mem_tagsOf.mp ((hmem t).mp ht)).1) with ⟨table, hfold, htable⟩
  have heq : vmemRehash vm n = { vm with hashlist := table, hashsize := n } := hfold
  refine ⟨table, heq, ?_⟩
  rw [heq]
  refine ⟨h.free, htable.congr (fun t => ?_) (fun _ _ => rfl), h.inuse, h.nbusytag⟩
  rw [hmem, or_iff_right (fun hno => hno)]
  rfl

end FreeBSDKern.Vmem
