import FreeBSDKern.Dir.Lookup
import FreeBSDKern.Lib.Run

/-!
# A Hash that Mirrors its Directory

The hash is told of every change of the directory: a name is added, removed or moved in
its block, the directory grows by a block or is truncated. What the blocks look like after
a change is not said here. It may be any well formed directory with the names that there
should be.

However long this goes on, and whenever the hash is recycled, freed or built anew: as long
as there is one, it agrees with the directory.

## Main definitions

* `Session`: A directory and its hash.
* `Mirrors`: The hash is told what happens to the directory.
* `Agrees`: A hash agrees with a directory.

## Theorems

* `Hashed.agrees`: The invariant gives it.
* `dirhash_agrees`: Every run in which the hash is told of every change.
-/

namespace FreeBSDKern.Dir

open Lib Function

structure Session where
  D : Directory
  h : IDirhash

/-- The calls, with the directory as it is after the change. -/
inductive Op where
  | build (env : Env)
  | add (D' : Directory) (name : Name) (offset : Nat)
  | remove (D' : Directory) (name : Name) (offset : Nat)
  | move (D' : Directory) (name : Name) (oldoff newoff : Nat)
  | newblk (D' : Directory)
  | dirtrunc (D' : Directory)
  | lookup (name : Name) (prev : Bool)
  /-- The memory is taken for another directory. -/
  | recycle
  | free

/-- A call. `none` is a panic, or a loop around the table that does not end. -/
def Session.exec (s : Session) : Op → Option Session
  | .build env => some ⟨s.D, (build s.D s.h env).1⟩
  | .add D' name offset => (s.h.acquire (fun dh => add dh name offset)).map (Session.mk D')
  | .remove D' name offset => (s.h.acquire (fun dh => remove dh name offset)).map (Session.mk D')
  | .move D' name oldoff newoff =>
    (s.h.acquire (fun dh => move dh name oldoff newoff)).map (Session.mk D')
  | .newblk D' => (s.h.acquire (fun dh => newblk dh s.D.iSize)).map (Session.mk D')
  | .dirtrunc D' => (s.h.acquire (fun dh => dirtrunc dh D'.iSize)).map (Session.mk D')
  | .lookup name prev => match s.h with
    | .hashed dh => (lookup s.D dh name prev).map (fun r => ⟨s.D, .hashed r.1⟩)
    | _ => some s
  | .recycle => match s.h with
    | .hashed dh => some ⟨s.D, .recycled dh.self⟩
    | _ => some s
  | .free => some ⟨s.D, .null⟩

/-- A change of a directory: it is well formed after it, and has these names. -/
structure Changed (D D' : Directory) (size : Nat) (live : Nat → Option Name) : Prop where
  ok : D'.Ok
  ofsfmt : D'.ofsfmt = D.ofsfmt
  iSize : D'.iSize = size
  live : D'.live = live

/-- The hash is told what happens to the directory. A directory that is hashed has a
    block. -/
def Mirrors (s : Session) : Op → Prop
  | .build _ => 0 < s.D.iSize
  | .add D' name offset => s.D.live offset = none ∧
      Changed s.D D' s.D.iSize (update s.D.live offset (some name))
  | .remove D' name offset => s.D.live offset = some name ∧
      Changed s.D D' s.D.iSize (update s.D.live offset none)
  | .move D' name oldoff newoff => s.D.live oldoff = some name ∧
      (newoff ≠ oldoff → s.D.live newoff = none) ∧ newoff / dirblksiz = oldoff / dirblksiz ∧
      Changed s.D D' s.D.iSize
        (update (update s.D.live oldoff none) newoff (some name))
  | .newblk D' => Changed s.D D' (s.D.iSize + dirblksiz) s.D.live
  | .dirtrunc D' => D'.iSize ≤ s.D.iSize ∧ Changed s.D D' D'.iSize s.D.live
  | .lookup _ _ => True
  | .recycle => True
  | .free => True

/-- A hash agrees with a directory. -/
structure Agrees (D : Directory) (dh : Dirhash) : Prop where
  /-- Every entry is in the table once, and nothing else is. -/
  once : ∀ o, D.live o ≠ none ↔ ∃! slot, slot < dh.dhHlen ∧ dh.dhHash slot = .used o
  /-- It can be reached from the hash of its name without crossing an empty slot. -/
  reach : ∀ {o n slot}, D.live o = some n → slot < dh.dhHlen → dh.dhHash slot = .used o →
    Reach dh.dhHlen dh.dhHash (dh.hash n) slot
  hused : dh.dhHused = occupied dh.dhHlen dh.dhHash
  room : dh.dhHused < dh.dhHlen
  /-- A search finds what the linear scan finds, with any sequential offset. -/
  lookup : ∀ seqoff n prev, ∃ dh' found,
    Dir.lookup D { dh with dhSeqoff := seqoff } n prev = some (dh', found) ∧ match D.scan n with
      | none => found = .enoent
      | some o => ∃ p, IsPrev D o p ∧ found = .entry o (if prev then some p else none)

theorem Hashed.agrees {D : Directory} {dh : Dirhash} (hD : D.Ok) (hfmt : D.ofsfmt = false)
    (h : Hashed D.listing dh) : Agrees D dh where
  once := by
    intro o
    constructor
    · intro hne
      rcases Option.ne_none_iff_exists'.mp hne with ⟨n, hlive⟩
      have hhome : homes dh D.listing.live o = some (dh.hash n) := homes_some hlive
      rcases h.holds.found hhome with ⟨-, slot, hslot, hused, -⟩
      exact ⟨slot, ⟨hslot, hused⟩, fun slot' h' => h.holds.once h'.1 hslot h'.2 hused⟩
    rintro ⟨slot, ⟨hslot, hused⟩, -⟩
    rcases live_of_used h hslot hused with ⟨n, hlive⟩
    rw [hlive]
    exact Option.some_ne_none n
  reach := by
    intro o n slot hlive hslot hused
    have hhome : homes dh D.listing.live o = some (dh.hash n) := homes_some hlive
    rcases h.holds.found hhome with ⟨-, slot', hslot', hused', hreach⟩
    rwa [h.holds.once hslot hslot' hused hused']
  hused := h.hused
  room := h.room
  lookup := by
    intro seqoff n prev
    have h' : Hashed D.listing { dh with dhSeqoff := seqoff } :=
      h.of_stats (h.stats.frame rfl rfl rfl rfl) rfl rfl rfl rfl
    rcases lookup_ok hD hfmt h' n prev with ⟨seqoff', found, hlookup, hfound⟩
    exact ⟨_, found, hlookup, hfound⟩

/-- The invariant of a session. Old directories are not hashed. -/
structure Session.Ok (s : Session) : Prop where
  dir : s.D.Ok
  hash : s.h.Ok s.D.listing
  ofsfmt : ∀ dh, s.h = .hashed dh → s.D.ofsfmt = false

/-- An operation that keeps the invariant of a hash, on what the inode points to. -/
theorem acquire_ok {L L' : Listing} {h : IDirhash} (hh : h.Ok L) {f : Dirhash → Option IDirhash}
    (hf : ∀ dh, Hashed L dh → ∃ h', f dh = some h' ∧ h'.Ok L') :
    ∃ h', h.acquire f = some h' ∧ h'.Ok L' ∧ ∀ dh', h' = .hashed dh' → ∃ dh, h = .hashed dh := by
  cases h with
  | hashed dh =>
    rcases hf dh hh with ⟨h', hf', hok⟩
    exact ⟨h', hf', hok, fun _ _ => ⟨dh, rfl⟩⟩
  | recycled self | null => exact ⟨.null, rfl, trivial, (nomatch ·, ·)⟩

theorem Changed.listing {D D' : Directory} {size : Nat} {live : Nat → Option Name}
    (h : Changed D D' size live) : D'.listing = ⟨size / dirblksiz, live⟩ := by
  rw [Directory.listing, h.live, Directory.nblocks, h.iSize]

/-- A change that the hash is told of. -/
theorem changed_ok {s : Session} (hs : s.Ok) {D' : Directory} {size : Nat}
    {live : Nat → Option Name} (hc : Changed s.D D' size live) {f : Dirhash → Option IDirhash}
    (hf : ∀ dh, Hashed s.D.listing dh → ∃ h', f dh = some h' ∧ h'.Ok D'.listing) :
    ∃ s', (s.h.acquire f).map (Session.mk D') = some s' ∧ s'.Ok := by
  rcases acquire_ok hs.hash hf with ⟨h', hacq, hok, hold⟩
  refine ⟨⟨D', h'⟩, by rw [hacq]; rfl, hc.ok, hok, fun dh' hdh' => ?_⟩
  rcases hold dh' hdh' with ⟨dh, hdh⟩
  exact hc.ofsfmt.trans (hs.ofsfmt dh hdh)

/-- What one call keeps. It neither panics nor goes round for ever. -/
theorem exec_ok {s : Session} {op : Op} (hs : s.Ok) (hm : Mirrors s op) :
    ∃ s', s.exec op = some s' ∧ s'.Ok := by
  cases op with
  | build env =>
    refine ⟨_, rfl, hs.dir, build_ok hs.dir hm hs.hash env, fun dh hdh => ?_⟩
    have hbuilt : (build s.D s.h env).1 = .hashed dh := hdh
    unfold build at hbuilt
    split at hbuilt
    case isTrue => exact hs.ofsfmt dh hbuilt
    case isFalse =>
    split at hbuilt
    case isTrue => cases hbuilt
    case isFalse hno =>
      cases hf : s.D.ofsfmt with
      | false => rfl
      | true => exact absurd (.inr (.inl hf)) hno
  | add D' name offset =>
    rcases hm with ⟨hnone, hc⟩
    have hok := hc.ok.listing
    rw [hc.listing] at hok
    refine changed_ok hs hc (fun dh hdh => ?_)
    rw [hc.listing]
    exact add_ok hdh hnone hok
  | remove D' name offset =>
    rcases hm with ⟨hsome, hc⟩
    refine changed_ok hs hc (fun dh hdh => ?_)
    rw [hc.listing]
    exact remove_ok hdh hsome hs.dir.listing
  | move D' name oldoff newoff =>
    rcases hm with ⟨hsome, hnone, hblock, hc⟩
    refine changed_ok hs hc (fun dh hdh => ?_)
    rw [hc.listing]
    exact move_ok hdh hsome hnone hblock
  | newblk D' =>
    refine changed_ok hs hm (fun dh hdh => ?_)
    have hblocks : (s.D.iSize + dirblksiz) / dirblksiz = s.D.nblocks + 1 :=
      Nat.add_div_right _ (by decide)
    have hnew := newblk_ok hdh hs.dir.listing
    rw [hm.listing, hblocks, hs.dir.size_eq]
    exact hnew
  | dirtrunc D' =>
    rcases hm with ⟨hle, hc⟩
    have hok := hc.ok.listing
    rw [hc.listing] at hok
    refine changed_ok hs hc (fun dh hdh => ?_)
    have htrunc := dirtrunc_ok hdh (Nat.div_le_div_right hle) hok
    have hsize : dirblksiz * (D'.iSize / dirblksiz) = D'.iSize := hc.ok.size_eq.symm
    rw [hc.listing, ← hsize, Nat.mul_div_cancel_left _ (by decide)]
    exact htrunc
  | lookup name prev =>
    cases hh : s.h with
    | hashed dh =>
      have hdh : Hashed s.D.listing dh := by
        have := hs.hash
        rwa [hh] at this
      have hfmt := hs.ofsfmt dh hh
      rcases lookup_ok hs.dir hfmt hdh name prev with ⟨seqoff, found, hlookup, -⟩
      refine ⟨⟨s.D, .hashed { dh with dhSeqoff := seqoff }⟩, ?_, hs.dir, ?_, fun _ _ => hfmt⟩
      · rw [Session.exec, hh]
        dsimp only
        rw [hlookup]
        rfl
      · exact hdh.of_stats (hdh.stats.frame rfl rfl rfl rfl) rfl rfl rfl rfl
    | recycled self | null => exact ⟨s, by rw [Session.exec, hh], hs⟩
  | recycle =>
    cases hh : s.h with
    | hashed dh =>
      refine ⟨⟨s.D, .recycled dh.self⟩, by rw [Session.exec, hh], hs.dir, trivial, ?_⟩
      exact fun _ h => nomatch h
    | recycled self | null => exact ⟨s, by rw [Session.exec, hh], hs⟩
  | free =>
    exact ⟨⟨s.D, .null⟩, rfl, hs.dir, trivial, nofun⟩

theorem run_ok {ops : List Op} (hD : D.Ok) (hm : EveryStep Session.exec Mirrors ⟨D, .null⟩ ops) :
    ∃ s, runOps Session.exec ⟨D, .null⟩ ops = some s ∧ s.Ok :=
  runOps_progress_of Session.exec Mirrors Session.Ok (fun _ _ hs hm => exec_ok hs hm) ops _
    ⟨hD, trivial, nofun⟩ hm

/-- However the directory changes, a hash that is told of every change agrees with it. -/
theorem dirhash_agrees (D : Directory) (hD : D.Ok) (ops : List Op)
    (hm : EveryStep Session.exec Mirrors ⟨D, .null⟩ ops) :
    ∃ s, runOps Session.exec ⟨D, .null⟩ ops = some s ∧ ∀ dh, s.h = .hashed dh → Agrees s.D dh := by
  rcases run_ok hD hm with ⟨s, hrun, hs⟩
  refine ⟨s, hrun, fun dh hdh => ?_⟩
  have hhash := hs.hash
  rw [hdh] at hhash
  exact Hashed.agrees hs.dir (hs.ofsfmt dh hdh) hhash

/-! ## A directory of one record -/

/-- A block that is one record, with a name of one letter if the inode number is not
    zero. -/
def oneRecord (ino : UInt8) : Directory where
  iSize := dirblksiz
  data := fun o => if o = 0 then ino else if o = 5 then 2 else if o = 7 then 1 else
    if o = 8 then 97 else 0
  ofsfmt := false

theorem oneRecord_tiles (ino : UInt8) :
    Tiles (oneRecord ino) (dirblksiz * 0) [0] (dirblksiz * (0 + 1)) := by
  have hlen : (oneRecord ino).dReclen 0 = 512 := by
    simp [Directory.dReclen, oneRecord]
  have hsiz : (oneRecord ino).dirsiz 0 = directsiz 1 := by
    simp [Directory.dirsiz, Directory.namlen, Directory.dNamlen, oneRecord]
  show 0 = 0 ∧ (oneRecord ino).dReclen 0 % 4 = 0 ∧
    (oneRecord ino).dirsiz 0 ≤ (oneRecord ino).dReclen 0 ∧ 0 + (oneRecord ino).dReclen 0 = 512
  rw [hlen, hsiz]
  decide

theorem oneRecord_live (ino : UInt8) (o : Nat) :
    (oneRecord ino).live o = if o = 0 ∧ ino ≠ 0 then some [97] else none := by
  have htile := oneRecord_tiles ino
  have hino : (oneRecord ino).dIno 0 = ino.toNat := by
    simp [Directory.dIno, oneRecord]
  have hzero : ino.toNat = 0 ↔ ino = 0 := by
    rw [← UInt8.toNat_inj]
    rfl
  by_cases ho : o = 0
  · rw [ho]
    by_cases hne : ino = 0
    · rw [Directory.live, hino, if_neg (fun h => h.2.2 (hzero.mpr hne)), if_neg (fun h => h.2 hne)]
    have hrec : (0 : Nat) ∈ (oneRecord ino).records (0 / dirblksiz) := by
      rw [show 0 / dirblksiz = 0 from rfl, htile.records]
      exact List.mem_singleton_self 0
    rw [Directory.live, hino, if_pos ⟨by show 0 < dirblksiz; decide, hrec,
      fun h => hne (hzero.mp h)⟩, if_pos ⟨rfl, hne⟩]
    rfl
  rw [if_neg (fun h => ho h.1), Directory.live, if_neg]
  rintro ⟨hlt, hrec, -⟩
  have hlt' : o < dirblksiz := hlt
  rw [Nat.div_eq_of_lt hlt', htile.records, List.mem_singleton] at hrec
  exact ho hrec

theorem oneRecord_ok (ino : UInt8) : (oneRecord ino).Ok where
  size := Nat.mod_self dirblksiz
  tiles := by
    intro b hb
    have hone : (oneRecord ino).nblocks = 1 := Nat.div_self (show 0 < dirblksiz by decide)
    have hzero : b = 0 := by omega
    have htile := oneRecord_tiles ino
    rw [hzero, htile.records]
    exact htile
  names := by
    intro o o' n ho ho'
    rw [oneRecord_live] at ho ho'
    split at ho
    case isFalse => cases ho
    case isTrue h =>
      split at ho'
      case isFalse => cases ho'
      case isTrue h' => rw [h.1, h'.1]

/-- A directory without names is hashed, gets a name, is searched, and loses it. -/
def oneNameOps : List Op :=
  [.build ⟨false, 0, 1, true, 0⟩, .add (oneRecord 5) [97] 0, .lookup [97] true,
    .remove (oneRecord 0) [97] 0]

theorem oneNameOps_mirrored : EveryStep Session.exec Mirrors ⟨oneRecord 0, .null⟩ oneNameOps := by
  have hadd : (oneRecord 5).live = update (oneRecord 0).live 0 (some [97]) := by
    funext o
    by_cases ho : o = 0
    · rw [ho, update_self, oneRecord_live]
      rfl
    · rw [update_of_ne ho, oneRecord_live, oneRecord_live, if_neg (fun h => ho h.1),
        if_neg (fun h => ho h.1)]
  have hremove : (oneRecord 0).live = update (oneRecord 5).live 0 none := by
    funext o
    by_cases ho : o = 0
    · rw [ho, update_self, oneRecord_live]
      rfl
    · rw [update_of_ne ho, oneRecord_live, oneRecord_live, if_neg (fun h => ho h.1),
        if_neg (fun h => ho h.1)]
  refine ⟨by show 0 < dirblksiz; decide, fun s₁ h₁ => ?_⟩
  rw [Session.exec, Option.mem_some_iff] at h₁
  subst h₁
  refine ⟨⟨by rw [oneRecord_live]; rfl, oneRecord_ok 5, rfl, rfl, hadd⟩, fun s₂ h₂ => ?_⟩
  rw [Session.exec, Option.mem_def, Option.map_eq_some_iff] at h₂
  rcases h₂ with ⟨h, -, rfl⟩
  refine ⟨trivial, fun s₃ h₃ => ?_⟩
  -- A search leaves the directory as it is.
  have hD : s₃.D = oneRecord 5 := by
    cases h with
    | hashed dh =>
      rw [Session.exec, Option.mem_def, Option.map_eq_some_iff] at h₃
      rcases h₃ with ⟨r, -, rfl⟩
      rfl
    | recycled self | null => rw [← Option.mem_some_iff.mp h₃]
  refine ⟨?_, fun _ _ => trivial⟩
  show s₃.D.live 0 = some [97] ∧ Changed s₃.D _ s₃.D.iSize _
  rw [hD]
  exact ⟨by rw [oneRecord_live]; rfl, oneRecord_ok 0, rfl, rfl, hremove⟩

theorem dirhash_agrees_one_name : EveryStep Session.exec Mirrors ⟨oneRecord 0, .null⟩ oneNameOps ∧
      ∃ s, runOps Session.exec ⟨oneRecord 0, .null⟩ oneNameOps = some s ∧
        ∀ dh, s.h = .hashed dh → Agrees s.D dh :=
  ⟨oneNameOps_mirrored,
    dirhash_agrees (oneRecord 0) (oneRecord_ok 0) oneNameOps oneNameOps_mirrored⟩

end FreeBSDKern.Dir
