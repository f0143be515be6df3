import FreeBSDKern.Dir.Table

/-!
# Building a Directory Hash

The hash is built by going through all records of the directory once. After each record
it is the hash of the names seen so far, and there are fewer records than slots, so that a
slot is always found. At the end it is the hash of the directory.

## Main definitions

* `Directory.listing`: The names of a directory.
* `seen`: The names of the records seen so far.

## Theorems

* `Directory.Ok.listing`: The names of a well formed directory have room in it.
* `Directory.Ok.allTiles`: All records, one behind the other.
* `build_ok`: The hash of a directory after it has been built.
-/

namespace FreeBSDKern.Dir

open Lib Function

/-- The names of a directory. -/
def Directory.listing (D : Directory) : Listing := ⟨D.nblocks, D.live⟩

variable {D : Directory}

/-! ## Records and names -/

theorem Directory.Ok.size_eq (hD : D.Ok) : D.iSize = dirblksiz * D.nblocks :=
  (Nat.mul_div_cancel' (Nat.dvd_of_mod_eq_zero hD.size)).symm

/-- A record is in its block. -/
theorem Directory.Ok.div_of_mem (hD : D.Ok) {b o : Nat} (hb : b < D.nblocks)
    (ho : o ∈ D.records b) : o / dirblksiz = b := by
  have hmem := (hD.tiles b hb).mem ho
  have hpos := (hD.tiles b hb).pos ho
  rw [Nat.mul_add] at hmem
  rw [Nat.div_eq_iff (by decide)]
  simp only [dirblksiz] at hmem ⊢
  omega

theorem Directory.Ok.mem_all (hD : D.Ok) {o : Nat} :
    o ∈ D.allRecords ↔ o < D.iSize ∧ o ∈ D.records (o / dirblksiz) := by
  rw [Directory.allRecords, List.mem_flatMap]
  constructor
  · rintro ⟨b, hb, ho⟩
    rw [List.mem_range] at hb
    have hdiv := hD.div_of_mem hb ho
    rw [hdiv]
    refine ⟨?_, ho⟩
    rw [hD.size_eq, Nat.mul_comm]
    exact Nat.lt_mul_of_div_lt (by rw [hdiv]; exact hb) (by decide)
  rintro ⟨hlt, ho⟩
  refine ⟨o / dirblksiz, List.mem_range.mpr ?_, ho⟩
  rw [hD.size_eq] at hlt
  exact Nat.div_lt_of_lt_mul hlt

theorem Directory.Ok.live_iff (hD : D.Ok) {o : Nat} {n : Name} :
    D.live o = some n ↔ o ∈ D.allRecords ∧ D.dIno o ≠ 0 ∧ D.name o = n := by
  rw [live_eq_some, hD.mem_all]
  tauto

/-- What is known of a record of the directory. -/
theorem Directory.Ok.record (hD : D.Ok) {o : Nat} (ho : o ∈ D.allRecords) :
    o < D.iSize ∧ 12 ≤ D.dReclen o ∧ D.dReclen o ≤ dirblksiz - o % dirblksiz ∧
      D.dReclen o % 4 = 0 ∧ D.dirsiz o ≤ D.dReclen o := by
  rcases hD.mem_all.mp ho with ⟨hlt, hmem⟩
  have hb : o / dirblksiz < D.nblocks := by
    rw [hD.size_eq] at hlt
    exact Nat.div_lt_of_lt_mul hlt
  have htile := hD.tiles _ hb
  have hrec := htile.mem hmem
  have hpos := htile.pos hmem
  have hmod := Nat.div_add_mod o dirblksiz
  rw [Nat.mul_add] at hrec
  exact ⟨hlt, hpos, by omega, hrec.2.2.1, hrec.2.2.2⟩

theorem Directory.Ok.allTiles (hD : D.Ok) : Tiles D 0 D.allRecords D.iSize := by
  have hprefix : ∀ k ≤ D.nblocks, Tiles D 0 ((List.range k).flatMap D.records) (dirblksiz * k) := by
    intro k
    induction k with
    | zero => exact fun _ => rfl
    | succ k ih =>
      intro hk
      rw [List.range_succ, List.flatMap_append]
      refine (ih (by omega)).append ?_
      simpa using hD.tiles k (by omega)
  have hall := hprefix D.nblocks le_rfl
  rwa [← hD.size_eq] at hall

theorem Tiles.length_le : ∀ {os : List Nat} {a e : Nat}, Tiles D a os e → 12 * os.length ≤ e - a
  | [], _, _, _ => zero_le
  | o :: os, a, e, h => by
    have hpos := h.pos List.mem_cons_self
    have hle := (h.mem List.mem_cons_self).2.1
    rcases h with ⟨rfl, -, -, hrest⟩
    have := hrest.length_le
    rw [List.length_cons]
    omega

/-! ## Room for the names -/

theorem Tiles.reclen_sum : ∀ {os : List Nat} {a e : Nat}, Tiles D a os e →
    a + (os.map D.dReclen).sum = e
  | [], _, _, h => h
  | o :: os, a, e, h => by
    rcases h with ⟨rfl, -, -, hrest⟩
    have := hrest.reclen_sum
    rw [List.map_cons, List.sum_cons]
    omega

/-- What is only at the records is summed up over them. -/
theorem Tiles.sum_eq (f : Nat → Nat) : ∀ {os : List Nat} {a e : Nat}, Tiles D a os e →
    (∀ x, a ≤ x → x < e → x ∉ os → f x = 0) → ∑ x ∈ Finset.Ico a e, f x = (os.map f).sum
  | [], a, e, h, _ => by
    cases h
    rw [Finset.Ico_self, Finset.sum_empty]
    rfl
  | o :: os, a, e, h, hzero => by
    have hpos := h.pos List.mem_cons_self
    rcases h with ⟨rfl, -, hsiz, hrest⟩
    have hend := hrest.le
    -- Inside the record there is nothing else.
    have hfirst : ∑ x ∈ Finset.Ico o (o + D.dReclen o), f x = f o := by
      refine Finset.sum_eq_single_of_mem o (Finset.mem_Ico.mpr (by omega)) (fun x hx hxo => ?_)
      rw [Finset.mem_Ico] at hx
      refine hzero x hx.1 (by omega) (fun hmem => ?_)
      rcases List.mem_cons.mp hmem with rfl | hmem
      · exact hxo rfl
      · have := (hrest.mem hmem).1
        omega
    have htail := Tiles.sum_eq f hrest (by
      intro x hx hxe hxos
      refine hzero x (by omega) hxe (fun hmem => ?_)
      rcases List.mem_cons.mp hmem with rfl | hmem
      · omega
      · exact hxos hmem)
    rw [← Finset.sum_Ico_consecutive f (by omega : o ≤ o + D.dReclen o) hend, hfirst, htail]
    rfl

/-- The names of a block are at its records. -/
theorem Directory.Ok.blockUse_eq (hD : D.Ok) {b : Nat} (hb : b < D.nblocks) :
    blockUse D.live b = ((D.records b).map fun o => cost (D.live o)).sum := by
  have hsum := Tiles.sum_eq (fun x => cost (D.live x)) (hD.tiles b hb) (by
    intro x hx hxe hxr
    cases hlive : D.live x with
    | none => rfl
    | some n =>
      have hmem := (live_eq_some.mp hlive).2.1
      have hdiv : x / dirblksiz = b := by
        rw [Nat.mul_add] at hxe
        rw [Nat.div_eq_iff (by decide)]
        simp only [dirblksiz] at hx hxe ⊢
        omega
      rw [hdiv] at hmem
      exact absurd hmem hxr)
  have hlen : dirblksiz * (b + 1) - dirblksiz * b = dirblksiz := by
    rw [Nat.mul_add, Nat.mul_one, Nat.add_sub_cancel_left]
  rw [Finset.sum_Ico_eq_sum_range, hlen] at hsum
  rw [blockUse]
  exact hsum

theorem cost_le (o : Nat) : cost (D.live o) ≤ D.dirsiz o := by
  cases hlive : D.live o with
  | none => exact zero_le
  | some n =>
    rw [← (live_eq_some.mp hlive).2.2.2]
    simp only [cost, Directory.name_length]
    exact le_rfl

theorem Directory.Ok.listing (hD : D.Ok) : D.listing.Ok where
  bound := by
    intro o n ho
    show o < dirblksiz * D.nblocks
    rw [← hD.size_eq]
    exact (live_eq_some.mp ho).1
  names := hD.names
  room := by
    intro b
    by_cases hb : b < D.nblocks
    · have htile := hD.tiles b hb
      have hsum : ((D.records b).map fun o => cost (D.live o)).sum ≤
          ((D.records b).map D.dReclen).sum :=
        List.sum_le_sum (fun o ho => (cost_le o).trans (htile.mem ho).2.2.2)
      have hlen := htile.reclen_sum
      rw [Nat.mul_add] at hlen
      show blockUse D.live b ≤ dirblksiz
      rw [hD.blockUse_eq hb]
      omega
    have hzero : blockUse D.live b = 0 := by
      refine Finset.sum_eq_zero (fun i _ => ?_)
      cases hlive : D.live (dirblksiz * b + i) with
      | none => rfl
      | some n =>
        have hlt := (live_eq_some.mp hlive).1
        have hmul : dirblksiz * D.nblocks ≤ dirblksiz * b := Nat.mul_le_mul_left _ (by omega)
        rw [hD.size_eq] at hlt
        omega
    show blockUse D.live b ≤ dirblksiz
    rw [hzero]
    exact zero_le

/-! ## Building -/

/-- The names of the records seen so far. -/
def seen (D : Directory) (done : List Nat) (o : Nat) : Option Name :=
  if o ∈ done then D.live o else none

theorem seen_append {done : List Nat} {o : Nat} :
    seen D (done ++ [o]) = update (seen D done) o (D.live o) := by
  funext p
  by_cases hp : p = o
  · rw [hp, update_self, seen, if_pos (by simp)]
  · rw [update_of_ne hp, seen, seen]
    simp [hp]

theorem seen_all (hD : D.Ok) : seen D D.allRecords = D.live := by
  funext o
  unfold seen
  split
  case isTrue => rfl
  case isFalse ho =>
    cases hlive : D.live o with
    | none => rfl
    | some n => exact absurd (hD.live_iff.mp hlive).1 ho

/-- What has been seen needs no more room than all there is. -/
theorem seen_ok (hD : D.Ok) (done : List Nat) : Listing.Ok ⟨D.nblocks, seen D done⟩ := by
  have hsome : ∀ {o n}, seen D done o = some n → D.live o = some n := by
    intro o n ho
    unfold seen at ho
    split at ho
    case isTrue => exact ho
    case isFalse => cases ho
  refine ⟨fun ho => hD.listing.bound (hsome ho), fun b => ?_,
    fun ho ho' => hD.names (hsome ho) (hsome ho')⟩
  refine le_trans (Finset.sum_le_sum (fun i _ => ?_)) (hD.listing.room b)
  show cost (seen D done (dirblksiz * b + i)) ≤ cost (D.live (dirblksiz * b + i))
  unfold seen
  split
  · exact le_rfl
  · exact zero_le

/-- The loop over the records that are left. -/
theorem buildLoop_ok (hD : D.Ok) (hfmt : D.ofsfmt = false) :
    ∀ {os done : List Nat} {pos fuel : Nat} {dh : Dirhash}, D.allRecords = done ++ os →
      Tiles D pos os D.iSize → os.length < fuel → Hashed ⟨D.nblocks, seen D done⟩ dh →
      dh.dhHused ≤ done.length → D.allRecords.length < dh.dhHlen →
      ∃ dh', buildLoop D fuel pos dh = some dh' ∧ Hashed D.listing dh' := by
  intro os
  induction os with
  | nil =>
    intro done pos fuel dh hall htile hfuel h _ _
    cases htile
    cases fuel with
    | zero => omega
    | succ fuel =>
      rw [List.append_nil] at hall
      refine ⟨dh, by rw [buildLoop, if_neg (lt_irrefl _)], ?_⟩
      rwa [← hall, seen_all hD] at h
  | cons o os ih =>
    intro done pos fuel dh hall htile hfuel h hcount hlen
    have hmem : o ∈ D.allRecords := by simp [hall]
    have hnodup := hD.allTiles.nodup
    rw [hall] at hnodup
    have hfresh : o ∉ done :=
      fun ho => (List.nodup_append.mp hnodup).2.2 o ho o List.mem_cons_self rfl
    rcases htile with ⟨rfl, -, -, hrest⟩
    rcases hD.record hmem with ⟨hlt, hpos, hle, -, -⟩
    have hall' : D.allRecords = (done ++ [o]) ++ os := by simp [hall]
    have hlen' : D.allRecords.length = done.length + os.length + 1 := by
      rw [hall, List.length_append, List.length_cons]
      omega
    cases fuel with
    | zero => omega
    | succ fuel =>
      rw [buildLoop, if_pos hlt, if_neg (by omega)]
      rw [List.length_cons] at hfuel
      split
      case isTrue hino =>
        have hname : D.dName o (D.dNamlen o) = D.name o := by
          simp only [Directory.name, Directory.namlen, hfmt, Bool.false_eq_true, if_false]
        have hlive : D.live o = some (D.name o) := hD.live_iff.mpr ⟨hmem, hino, rfl⟩
        have hlive' : seen D (done ++ [o]) = update (seen D done) o (some (D.name o)) := by
          rw [seen_append, hlive]
        rw [hname]
        -- There are more slots than records.
        rcases exists_empty (by rw [← h.hused]; exact h.room) with ⟨j, hj, hempty⟩
        rcases seek_spec (t := dh.dhHash) (fun v => v = .empty) (hash_lt h.room (D.name o)) hj
          (decide_eq_true hempty) with ⟨e, he, hseek, hat, hbefore⟩
        have hslot : (dh.hash (D.name o) + e) % dh.dhHlen < dh.dhHlen :=
          Nat.mod_lt _ (by omega)
        have hempty' := of_decide_eq_true hat
        have hnone : seen D done o = none := if_neg hfresh
        have hok := seen_ok hD (done ++ [o])
        rw [hlive'] at hok
        have hreach : Reach dh.dhHlen dh.dhHash (dh.hash (D.name o))
            ((dh.hash (D.name o) + e) % dh.dhHlen) :=
          reach_of_seek (fun v => v = .empty) (decide_eq_true rfl) he hbefore
        have hput := putslot_adjfree h hnone hok hslot hreach
          (by
            intro b hb
            rw [hb] at hempty'
            exact nomatch hempty')
          (by omega)
        have hsiz : directsiz (D.dNamlen o) = directsiz (D.name o).length := by
          rw [← hname, Directory.dName_length]
        rw [hseek, hsiz]
        refine ih hall' hrest (by omega) (by rw [hlive']; exact hput) ?_ ?_
        · rw [adjfree_dhHused, List.length_append, List.length_singleton]
          have := (putslot_ok h hnone hslot hreach (by
            intro b hb
            rw [hb] at hempty'
            exact nomatch hempty')).2.2
          omega
        · rw [adjfree_dhHlen]
          exact hlen
      case isFalse hino =>
      have hlive : D.live o = none := by
        cases hlive : D.live o with
        | none => rfl
        | some n => exact absurd (hD.live_iff.mp hlive).2.1 hino
      have hseen : seen D (done ++ [o]) = seen D done := by
        rw [seen_append, hlive]
        funext p
        by_cases hp : p = o
        · rw [hp, update_self, seen, if_neg hfresh]
        · rw [update_of_ne hp]
      refine ih hall' hrest (by omega) (by rw [hseen]; exact h) ?_ hlen
      rw [List.length_append]
      omega

/-- A hash without entries is one of a directory without names. -/
theorem emptyHash_ok (hD : D.Ok) (hpos : 0 < D.iSize) (self : UInt64) :
    Hashed ⟨D.nblocks, fun _ => none⟩ (emptyHash D self) ∧
      D.allRecords.length < (emptyHash D self).dhHlen := by
  have hsize := hD.size_eq
  have hblocks : 0 < D.nblocks := by
    by_contra hz
    have hzero : D.nblocks = 0 := by omega
    rw [hzero, Nat.mul_zero] at hsize
    omega
  have hlen : D.allRecords.length < (emptyHash D self).dhHlen := by
    have hcount := hD.allTiles.length_le
    simp only [emptyHash, dhNblkoff, directsiz, dirblksiz] at hsize ⊢
    omega
  have hdirblks : (emptyHash D self).dhDirblks = D.nblocks := by
    simp only [emptyHash, dirblksiz] at hsize ⊢
    omega
  refine ⟨⟨⟨?_, ?_, ?_⟩, ?_, ?_, ⟨hdirblks, ?_, ?_, ?_⟩⟩, hlen⟩
  · intro i a _ h
    cases h
  · intro a h hh
    cases hh
  · intro i j a _ _ h
    cases h
  · exact (Finset.sum_eq_zero (fun _ _ => rfl)).symm
  · exact lt_of_le_of_lt zero_le hlen
  · simp only [emptyHash]
    omega
  · intro b _
    have hzero : blockUse (fun _ => none) b = 0 := Finset.sum_eq_zero (fun _ _ => rfl)
    rw [hzero]
    rfl
  intro i hi
  rw [hdirblks]
  simp only [emptyHash]
  split
  case isTrue heq =>
    refine ⟨hblocks, decide_eq_true ?_, fun c hc => absurd hc (Nat.not_lt_zero c)⟩
    rw [heq]
    decide
  case isFalse hne =>
    intro c _
    exact decide_eq_false (fun heq => hne (heq.symm.trans (by decide)))

/-- Building a hash, or keeping the one that is there. -/
theorem build_ok (hD : D.Ok) (hpos : 0 < D.iSize) {h : IDirhash} (hh : h.Ok D.listing) (env : Env) :
    (build D h env).1.Ok D.listing := by
  have hstart : D.ofsfmt = false → ∀ self, (build.start D env self).1.Ok D.listing := by
    intro hfmt self
    unfold build.start
    split
    case isTrue => trivial
    case isFalse =>
    rcases emptyHash_ok hD hpos self with ⟨hempty, hlen⟩
    have hnil : (fun _ => none) = seen D [] := by
      funext o
      exact (if_neg List.not_mem_nil).symm
    rw [hnil] at hempty
    have hfuel : D.allRecords.length < D.iSize + 1 := by
      have := hD.allTiles.length_le
      omega
    rcases buildLoop_ok hD hfmt (List.nil_append _).symm hD.allTiles hfuel hempty
      zero_le hlen with ⟨dh, hloop, hdh⟩
    rw [hloop]
    exact hdh
  unfold build
  split
  case isTrue => exact hh
  case isFalse =>
  split
  case isTrue => trivial
  case isFalse hno =>
  have hfmt : D.ofsfmt = false := by
    cases hf : D.ofsfmt with
    | false => rfl
    | true => exact absurd (.inr (.inl hf)) hno
  cases h with
  | hashed dh => exact hh
  | recycled self => exact hstart hfmt self
  | null => exact hstart hfmt env.fresh

end FreeBSDKern.Dir
