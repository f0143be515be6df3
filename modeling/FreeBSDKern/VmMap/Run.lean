import FreeBSDKern.VmMap.Delete
import FreeBSDKern.VmMap.Insert
import FreeBSDKern.VmMap.Findspace
import FreeBSDKern.Lib.Run

/-!
# Runs on an Address Map

Along every run from the empty map the invariant holds: the list is in address
order, the tree is a search tree for it whose cached maxima are right, every gap
is recorded as it is, and the size is the sum of the entries. Each operation has
been shown to keep it, so the run is an induction.

`vm_map_delete` waits for entries that are in transition or wired by the system.
None of the operations here makes such an entry, which is part of what is carried
along (`Quiet`), so it never does wait.

## Main definitions

* `MapOp`, `step`: The operations.
* `Quiet`: Nothing is in transition or wired.

## Theorems

* `step_spec`: One step.
* `map_representation_invariant`: Every run.
-/

namespace FreeBSDKern.VmMap

open Lib

/-- The operations on an address map. -/
inductive MapOp where
  | insert (env : Env) (object : Option Nat) (offset : BitVec 64) (start stop : Nat)
      (prot max : Prot) (cow : Map.Cow)
  | delete (env : Env) (start stop : Nat)
  | lookupEntry (mayWrite : Bool) (address : Nat)
  | findspace (start length : Nat)
  | clipStart (entry start : Nat)
  | clipEnd (entry stop : Nat)
  | simplifyEntry (entry : Nat)

/-- What the clip functions ask: an entry of the map and an address inside it. -/
def Inside (m : Map) (entry a : Nat) : Prop :=
  entry ∈ m.list ∧ (m.entry entry).start < a ∧ a < (m.entry entry).stop

instance (m : Map) (entry a : Nat) : Decidable (Inside m entry a) :=
  inferInstanceAs (Decidable (_ ∧ _ ∧ _))

/-- One operation, `none` for arguments the function does not accept. -/
def step (m : Map) : MapOp → Option Map
  | .insert env object offset start stop prot max cow =>
    some (m.mapInsert env object offset start stop prot max cow).2
  | .delete env start stop => m.mapDelete env start stop
  | .lookupEntry w address => some (m.lookupEntry w address).1
  | .findspace start length => some (m.findspace start length).1
  | .clipStart entry start =>
    if Inside m entry start then some (m.clipStartAt entry start) else none
  | .clipEnd entry stop => if Inside m entry stop then some (m.clipEndAt entry stop) else none
  | .simplifyEntry entry => if entry ∈ m.list then some (m.simplifyEntry entry) else none

/-- Nothing is in transition or wired. -/
def Quiet (m : Map) : Prop :=
  ∀ a v, m.look a = some v →
    v.eflags.inTransition = false ∧ v.eflags.userWired = false ∧ v.wiredCount = 0

theorem Quiet.settled {m : Map} (hq : Quiet m) (h : Wf m) : Settled m m.list := by
  intro i hi
  have hne := h.laid.nonempty i hi
  have hv := hq _ _ (look_of_mem h.laid hi ⟨le_refl _, hne⟩)
  simp only [Entry.view] at hv
  simp [Map.mustWait, systemWiredCount, hv]

theorem Quiet.sameAt {m m' : Map} (hq : Quiet m) {f f' : Nat} {base : Nat → Nat}
    (h : ∀ a, SameAt f f' base a (m.look a) (m'.look a)) : Quiet m' := by
  intro a v hv
  have ha := h a
  rw [hv] at ha
  generalize hm : m.look a = w at ha
  cases ha with
  | kept _ => exact hq a v hm
  | created w o hw hlo hhi hbase => exact hq a w hm

theorem Quiet.deleted {m m' : Map} (hq : Quiet m) {lo hi : Nat} {base : Nat → Nat}
    (h : Deleted m m' lo hi base) : Quiet m' := by
  intro a v hv
  by_cases ha : lo ≤ a ∧ a < hi
  · rw [h.gone a ha.1 ha.2] at hv
    cases hv
  have hs := h.kept a (by omega)
  rw [hv] at hs
  generalize hm : m.look a = w at hs
  cases hs with
  | kept _ => exact hq a v hm
  | created w o hw hlo hhi hbase => exact hq a w hm

theorem Quiet.inserted {m m' : Map} (hq : Quiet m) {start stop : Nat} {prot max : Prot}
    {cow : Map.Cow} (h : Inserted m m' start stop prot max cow) : Quiet m' := by
  intro a v hv
  by_cases ha : start ≤ a ∧ a < stop
  · rcases h.mapped a ha.1 ha.2 with ⟨w, hw, hf, hc, -, -⟩
    rw [hw, Option.some.injEq] at hv
    rw [← hv, hf]
    exact ⟨rfl, rfl, hc⟩
  · rw [h.outside a (by omega)] at hv
    exact hq a v hv

theorem init_wf {min max : Nat} (hmin : min < 2 ^ 64) (hmax : max < 2 ^ 64) (sys ker : Bool)
    (entry : Nat → Entry) (obj : Nat → Obj) (freshObj : Nat) :
    Wf (Map.init min max sys ker entry obj freshObj) where
  tree := ⟨List.nodup_nil, rfl, SplayTree.maxOk_nil _, rfl, nofun⟩
  laid := ⟨List.Pairwise.nil, fun _ h => (nomatch h), fun _ h => (nomatch h),
    fun _ h => (nomatch h)⟩
  gaps _ h := nomatch h
  size := rfl
  limit := ⟨hmin, hmax⟩

/-- Every operation keeps the invariant, and makes nothing that has to be waited
    for. -/
theorem step_spec {m m' : Map} {op : MapOp} (h : Wf m ∧ Quiet m) (hstep : step m op = some m') :
    Wf m' ∧ Quiet m' := by
  rcases h with ⟨h, hq⟩
  have hroot : ∀ {t}, Wf { m with root := t } → Wf ({ m with root := t } : Map) ∧
      Quiet { m with root := t } := fun hw => ⟨hw, hq⟩
  cases op with
  | insert env object offset start stop prot max cow =>
    have hspec := mapInsert_spec h env object offset start stop prot max cow
    simp only [step, Option.some.injEq] at hstep
    rw [← hstep]
    rcases hspec with ⟨-, hins, -⟩ | ⟨-, t, heq, hw⟩
    · exact ⟨hins.wf, hq.inserted hins⟩
    · rw [heq] at hw ⊢
      exact hroot hw
  | delete env start stop =>
    rcases mapDelete_spec h env start stop (hq.settled h) with
      ⟨m'', base, heq, hw, ⟨-, hm⟩ | hdel⟩
    · rw [step, heq, Option.some.injEq] at hstep
      rw [← hstep, hm]
      exact ⟨h, hq⟩
    rw [step, heq, Option.some.injEq] at hstep
    rw [← hstep]
    exact ⟨hw, hq.deleted hdel⟩
  | lookupEntry w address =>
    rcases lookup_spec h w address with ⟨t, b, e, heq, hw, -⟩
    simp only [step, heq, Option.some.injEq] at hstep
    rw [← hstep]
    exact hroot hw
  | findspace start length =>
    rcases findspace_shape h start length with ⟨t, heq, hw⟩
    simp only [step, heq, Option.some.injEq] at hstep
    rw [← hstep]
    exact hroot hw
  | clipStart entry start =>
    rw [step] at hstep
    split at hstep
    case isFalse => cases hstep
    case isTrue hin =>
    rcases List.append_of_mem hin.1 with ⟨pre, post, hlist⟩
    rcases clipStartAt_spec h hlist hin.2 with ⟨-, -, e, -, hclip, -⟩
    rw [Option.some.injEq] at hstep
    rw [← hstep]
    exact ⟨hclip.wf, hq.sameAt hclip.look⟩
  | clipEnd entry stop =>
    rw [step] at hstep
    split at hstep
    case isFalse => cases hstep
    case isTrue hin =>
    rcases List.append_of_mem hin.1 with ⟨pre, post, hlist⟩
    have hclip := (clipEndAt_spec h hlist hin.2).1
    rw [Option.some.injEq] at hstep
    rw [← hstep]
    exact ⟨hclip.wf, hq.sameAt hclip.look⟩
  | simplifyEntry entry =>
    rw [step] at hstep
    split at hstep
    case isFalse => cases hstep
    case isTrue hin =>
    rcases List.append_of_mem hin with ⟨pre, post, hlist⟩
    rcases simplifyEntry_spec h hlist with ⟨pre', post', e, hsimp⟩
    rw [Option.some.injEq] at hstep
    rw [← hstep]
    refine ⟨hsimp.wf, fun a v hv => ?_⟩
    rw [hsimp.look] at hv
    exact hq a v hv

/-- The representation invariant holds in every map that a run of the operations
    reaches, and none of them waits for another thread. -/
theorem map_representation_invariant (min max : Nat) (hmin : min < 2 ^ 64) (hmax : max < 2 ^ 64)
    (sys ker : Bool) (entry : Nat → Entry) (obj : Nat → Obj) (freshObj : Nat)
    (ops : List MapOp) (m : Map)
    (hrun : runOps step (Map.init min max sys ker entry obj freshObj) ops = some m) :
    Wf m ∧ ∀ env start stop, (m.mapDelete env start stop).isSome := by
  have hinv := runOps_invariant step (fun m => Wf m ∧ Quiet m)
    (fun _ _ _ h hstep => step_spec h hstep) ops _ m
    ⟨init_wf hmin hmax sys ker entry obj freshObj, fun _ _ hv => nomatch hv⟩ hrun
  refine ⟨hinv.1, fun env start stop => ?_⟩
  rcases mapDelete_spec hinv.1 env start stop (hinv.2.settled hinv.1) with
    ⟨m', base, heq, -⟩
  rw [heq]
  rfl

/-- Eight pages are mapped, split twice, searched around and deleted in part. -/
def sampleOps : List MapOp :=
  [.insert plainEnv none 0 8192 40960 3 7 {}, .clipEnd 0 32768, .clipStart 0 16384,
    .lookupEntry true 36864, .lookupEntry false 4096, .findspace 4096 8192,
    .delete plainEnv 12288 20480, .simplifyEntry 3]

/-- The empty map the sample run starts from. -/
def sampleInit : Map :=
  Map.init 4096 1048576 false false (fun _ => ⟨0, 0, 0, none, 0, {}, 0, 0, .copy, 0, none, none⟩)
    (fun _ => ⟨.default, 1, 0, false, false, false, 0, none, 0⟩) 0

theorem map_representation_invariant_sample :
    ∃ m, runOps step sampleInit sampleOps = some m ∧ Wf m ∧
      ∀ env start stop, (m.mapDelete env start stop).isSome := by
  have hsome : (runOps step sampleInit sampleOps).isSome = true := by decide
  rcases Option.isSome_iff_exists.mp hsome with ⟨m, hm⟩
  exact ⟨m, hm, map_representation_invariant 4096 1048576 (by decide) (by decide) false false _ _ 0
    sampleOps m hm⟩

end FreeBSDKern.VmMap
