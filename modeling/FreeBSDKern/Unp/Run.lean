import FreeBSDKern.Unp.Count
import FreeBSDKern.Lib.Run

/-!
# Passing Descriptors Conserves References

Along any run of sends, receives and disposals, `unp_rights` is the number of entries
in control mbufs on receive buffers, the `unp_msgcount` of every local socket is the
number of those that refer to it, and every entry holds one reference, unless a send
drops a chain that it does not take apart, or walks off the chain it builds.

The chain is only freed, not taken apart, in two places: when `unp_internalize` fails
at a message after it made a mbuf of descriptors from an earlier one, and when the
receive buffer of a stream or a seqpacket socket does not take the chain, for then no
error is set. It walks off the chain when a message of descriptors that holds none is
not the last one, and off the buffer when the length of a message stops inside the
padding of its header. `Tidy` is the condition on the messages of a buffer that none
of this happens.

## Main definitions

* `Conserves`: The counts are those of the control mbufs on receive buffers.
* `Reaches`: The send gets as far as the receive buffer of the peer.
* `Tidy`, `Careful`: The conditions on a buffer and on a step.

## Theorems

* `internalizeLoop_spec`, `sendRest_conserves`, `uipcSend_conserves`: One send.
* `rights_conserved`: The counts along every run.
* `failed_message_leaks`: A run after which `unp_rights` counts a lost entry.
-/

namespace FreeBSDKern.Unp

open Lib Function

variable {files : Files} {s : State} {L : List Nat}

/-- The entries of control mbufs on receive buffers. -/
def held (s : State) : List Nat := fileptrs (s.queued.map (fun e => e.2))

/-- No mbuf of descriptors is without one, as `unp_freerights` asserts. -/
def Filled (chain : List Mbuf) : Prop := .rights [] ∉ chain

structure Conserves (files : Files) (s : State) : Prop where
  balanced : Balanced files s (held s)
  filled : Filled (s.queued.map (fun e => e.2))

/-- A send on a stream or seqpacket socket gets to the receive buffer of the peer. -/
def Reaches (s : State) (a : SendArgs) : Prop :=
  (if (s.socks a.so).connected then (s.socks a.so).conn.isSome else a.nam.join.isSome) = true ∧
    (s.socks a.so).cantsendmore = false

instance (s : State) (a : SendArgs) : Decidable (Reaches s a) := by
  unfold Reaches
  infer_instance

/-- The receive buffer takes the chain, or the error is set when it does not. -/
def Kept (s : State) (a : SendArgs) : Prop :=
  (s.socks a.so).type = .dgram ∨ ¬Reaches s a ∨ a.append = true

instance (s : State) (a : SendArgs) : Decidable (Kept s a) := by
  unfold Kept
  infer_instance

/-- The messages stay inside the buffer up to the first that fails, none before that
    one carries descriptors, and a message of descriptors without any is the last or
    just before the one that fails. If none fails and some carry descriptors, the
    receive buffer takes them. `carried` and `dangling` are about the messages before:
    whether one carried descriptors, and whether the last was one without. -/
def Tidy (files : Files) (fget : Int → Option Nat) (alloc : Nat → Bool) (kept : Prop) :
    List (Option Cmsg) → Bool → Bool → Prop
  | [], carried, _ => carried = true → kept
  | c :: cs, carried, dangling =>
    match convert files fget c with
    | .fault => False
    | .error _ => carried = false
    | .ok none => dangling = false ∧ Tidy files fget alloc kept cs carried true
    | .ok (some m) =>
      dangling = false ∧ if alloc cs.length = false ∨ tooLarge m = true then carried = false
        else Tidy files fget alloc kept cs (carried || !(fileptrs [m]).isEmpty) false

instance Tidy.decidable (files : Files) (fget : Int → Option Nat) (alloc : Nat → Bool)
    (kept : Prop) [Decidable kept] : ∀ (cs : List (Option Cmsg)) (carried dangling : Bool),
      Decidable (Tidy files fget alloc kept cs carried dangling)
  | [], carried, _ => inferInstanceAs (Decidable (carried = true → kept))
  | c :: cs, carried, dangling =>
    have hrec := Tidy.decidable files fget alloc kept cs
    match h : convert files fget c with
    | .fault => isFalse (by simp [Tidy, h])
    | .error _ => decidable_of_iff (carried = false) (by simp [Tidy, h])
    | .ok none => decidable_of_iff (dangling = false ∧ Tidy files fget alloc kept cs carried true)
        (by simp [Tidy, h])
    | .ok (some m) => decidable_of_iff (dangling = false ∧
          if alloc cs.length = false ∨ tooLarge m = true then carried = false
          else Tidy files fget alloc kept cs (carried || !(fileptrs [m]).isEmpty) false)
        (by simp [Tidy, h])

/-- The condition on a step: a send whose control buffer is looked at has a tidy one. -/
def Careful (files : Files) (s : State) : Op → Prop
  | .send a => a.oob = false → ∀ b ∈ a.control,
      Tidy files a.fget a.alloc (Kept s a) (messages b) false false
  | _ => True

instance (files : Files) (s : State) (o : Op) : Decidable (Careful files s o) := by
  unfold Careful
  split <;> infer_instance

variable {fget : Int → Option Nat} {c control : List Mbuf} {a : SendArgs}

theorem getFiles_length : ∀ (n : Nat) (data : List (BitVec 8)) (fps : List Nat),
      getFiles files fget n data = .ok fps → fps.length = n := by
  intro n
  induction n with
  | zero =>
    intro data fps h
    rw [getFiles] at h
    cases h
    rfl
  | succ n ih =>
    intro data fps h
    rw [getFiles] at h
    split at h
    case h_1 => cases h
    case h_2 fd _ =>
    split at h
    case h_1 => cases h
    case h_2 fp _ =>
    split at h
    case isTrue => cases h
    case isFalse =>
    split at h
    case h_1 fps' hrest =>
      cases h
      rw [List.length_cons, ih _ _ hrest]
    case h_2 => cases h
    case h_3 => cases h

theorem convert_filled {c : Option Cmsg} {m : Mbuf} (h : convert files fget c = .ok (some m)) :
    m ≠ .rights [] := by
  rintro rfl
  unfold convert at h
  split at h
  case h_1 => cases h
  case h_2 c =>
  split at h
  case isTrue => cases h
  case isFalse =>
  split at h
  case isTrue =>
    split at h
    case isTrue => cases h
    case isFalse hn =>
    split at h
    case h_1 fps hfps =>
      cases h
      exact hn (getFiles_length _ _ _ hfps).symm
    case h_2 => cases h
    case h_3 => cases h
  case isFalse => cases h

/-- The loop of `unp_internalize` over tidy messages comes to its end, every file
    pointer of its chain is counted, and on an error there is none. -/
theorem internalizeLoop_spec {alloc : Nat → Bool} {kept : Prop} :
    ∀ (cs : List (Option Cmsg)) (carried dangling : Bool) (chain : List Mbuf) (s : State),
      Balanced files s (L ++ fileptrs chain) → Filled chain →
      (carried = false → fileptrs chain = []) → Tidy files fget alloc kept cs carried dangling →
      ∃ r, internalizeLoop files fget alloc cs dangling chain s = some r ∧
        SameQueues s r.2.2 ∧ Balanced files r.2.2 (L ++ fileptrs r.2.1) ∧ Filled r.2.1 ∧
        (r.1 ≠ .ok → fileptrs r.2.1 = []) ∧ (fileptrs r.2.1 = [] ∨ kept) := by
  intro cs
  induction cs with
  | nil =>
    intro carried dangling chain s hbal hfill hcarried htidy
    refine ⟨_, rfl, .refl s, hbal, hfill, fun h => absurd rfl h, ?_⟩
    cases carried with
    | false => exact .inl (hcarried rfl)
    | true => exact .inr (htidy rfl)
  | cons c cs ih =>
    intro carried dangling chain s hbal hfill hcarried htidy
    rw [Tidy] at htidy
    rw [internalizeLoop]
    cases hc : convert files fget c with
    | fault => rw [hc] at htidy; exact htidy.elim
    | error e =>
      rw [hc] at htidy
      have hnone := hcarried htidy
      exact ⟨_, rfl, .refl s, hbal, hfill, fun _ => hnone, .inl hnone⟩
    | ok o =>
      rw [hc] at htidy
      cases o with
      | none =>
        dsimp only at htidy ⊢
        rw [htidy.1, if_neg Bool.false_ne_true]
        exact ih carried true chain s hbal hfill hcarried htidy.2
      | some m =>
        dsimp only at htidy ⊢
        rw [htidy.1, if_neg Bool.false_ne_true]
        have htidy := htidy.2
        split
        case isTrue hfail =>
          rw [if_pos hfail] at htidy
          have hnone := hcarried htidy
          exact ⟨_, rfl, .refl s, hbal, hfill, fun _ => hnone, .inl hnone⟩
        case isFalse hgood =>
        rw [if_neg hgood] at htidy
        have hsame : SameQueues s ((fileptrs [m]).foldl (internalizeFp files) s) :=
          .foldl (internalizeFp_same files) _ s
        rcases ih _ false (chain ++ [m]) _
            (by
              rw [fileptrs_append, ← List.append_assoc]
              exact hbal.internalize _ _ _)
            (by
              intro hin
              rcases List.mem_append.mp hin with hin | hin
              · exact hfill hin
              · exact convert_filled hc (List.mem_singleton.mp hin).symm)
            (fun hnew => by
              rw [Bool.or_eq_false_iff, Bool.not_eq_false', List.isEmpty_iff] at hnew
              rw [fileptrs_append, hcarried hnew.1, hnew.2]
              rfl) htidy with ⟨r, hr, hq, hrest⟩
        exact ⟨r, hr, hsame.trans hq, hrest⟩

theorem fileptrs_perm {c' : List Mbuf} (h : c.Perm c') : (fileptrs c).Perm (fileptrs c') :=
  List.Perm.flatMap_right _ h

/-- What becomes of the chain: it stays, with all its file pointers, or it is put on
    a receive buffer. -/
inductive Outcome (s : State) (control : List Mbuf) : Errno × List Mbuf × State → Prop where
  | stays (e : Errno) (c : List Mbuf) (socks : Nat → Sock) (hc : fileptrs c = fileptrs control) :
      Outcome s control (e, c, { s with socks := socks })
  | queued (so2 : Nat) (c : List Mbuf) (socks : Nat → Sock) (hc : fileptrs c = fileptrs control)
      (hfill : Filled c) : Outcome s control (.ok, [], { enqueue s so2 c with socks := socks })

theorem filled_addsockcred (alloc : Bool) (h : Filled c) : Filled (addsockcred alloc c) := by
  unfold addsockcred
  split
  case isTrue =>
    intro hin
    rcases List.mem_cons.mp hin with he | hin
    · cases he
    · exact h (List.mem_of_mem_filter hin)
  case isFalse => exact h

@[simp] theorem setSock_self (s : State) (so : Nat) (v : Sock) : (s.setSock so v).socks so = v := by
  simp [State.setSock]

/-- Connecting changes nothing but the socket that sends. -/
theorem connectFor_spec (s : State) (a : SendArgs) (need : Bool) :
    ∃ v, (connectFor s a need).2 = s.setSock a.so v ∧ v.cantsendmore = (s.socks a.so).cantsendmore ∧
      ((connectFor s a need).1 = .ok →
        v.conn.isSome = if need then a.nam.join.isSome else (s.socks a.so).conn.isSome) := by
  have hself : s = s.setSock a.so (s.socks a.so) := by
    rw [State.setSock, update_eq_self]
  unfold connectFor
  cases need with
  | false => exact ⟨_, hself, rfl, fun _ => rfl⟩
  | true =>
    rw [if_pos rfl]
    unfold connect
    split
    case h_1 => exact ⟨_, hself, rfl, nofun⟩
    case h_2 => exact ⟨_, hself, rfl, nofun⟩
    case h_3 peer hnam => exact ⟨_, rfl, rfl, fun _ => by rw [hnam]; rfl⟩

/-- The chain with the credentials, if the peer asked for them. -/
theorem credentials_spec (hfill : Filled control) (want alloc : Bool) :
    fileptrs (if want then addsockcred alloc control else control) = fileptrs control ∧
      Filled (if want then addsockcred alloc control else control) := by
  cases want with
  | false => exact ⟨rfl, hfill⟩
  | true => exact ⟨fileptrs_addsockcred alloc control, filled_addsockcred alloc hfill⟩

theorem dgramAppend_spec (s : State) (a : SendArgs) (hfill : Filled control) (so2 : Nat) :
    Outcome s control (dgramAppend s a control so2) ∧
      ((dgramAppend s a control so2).1 = .ok → (dgramAppend s a control so2).2.1 = []) := by
  have hcred := credentials_spec hfill (s.socks so2).wantcred a.credAlloc
  unfold dgramAppend
  cases a.append with
  | false =>
    refine ⟨?_, nofun⟩
    cases a.nam.isSome with
    | false | true => exact .stays _ _ _ hcred.1
  | true =>
    refine ⟨?_, fun _ => rfl⟩
    cases a.nam.isSome with
    | false | true => exact .queued so2 _ _ hcred.1 hcred.2

theorem streamAppend_spec (s : State) (a : SendArgs) (hfill : Filled control) (so2 : Nat) :
    Outcome s control (streamAppend s a control so2) ∧
      (a.append = true → (streamAppend s a control so2).2.1 = []) := by
  have hcred := credentials_spec hfill (s.socks so2).wantcred a.credAlloc
  unfold streamAppend
  cases a.append with
  | false =>
    refine ⟨?_, nofun⟩
    cases hw : (s.socks so2).wantcred with
    | false => exact .stays _ _ _ rfl
    | true =>
      rw [hw] at hcred
      exact .stays _ _ _ hcred.1
  | true =>
    refine ⟨?_, fun _ => rfl⟩
    cases hw : (s.socks so2).wantcred with
    | false => exact .queued so2 _ _ rfl hfill
    | true =>
      rw [hw] at hcred
      exact .queued so2 _ _ hcred.1 hcred.2

/-- An outcome does not depend on the sockets before. -/
theorem Outcome.setSock {so : Nat} {v : Sock} {r : Errno × List Mbuf × State}
    (h : Outcome (s.setSock so v) control r) : Outcome s control r := by
  cases h with
  | stays e c socks hc => exact .stays e c socks hc
  | queued so2 c socks hc hfill => exact .queued so2 c socks hc hfill

theorem sendDgram_spec (s : State) (a : SendArgs) (hfill : Filled control) :
    Outcome s control (sendDgram s a control) ∧
      ((sendDgram s a control).1 = .ok → (sendDgram s a control).2.1 = []) := by
  rcases connectFor_spec s a a.nam.isSome with ⟨v, hv, -, -⟩
  unfold sendDgram
  split
  case isTrue => exact ⟨.stays _ _ _ rfl, nofun⟩
  case isFalse =>
  dsimp only
  rw [hv]
  split
  case isTrue he => exact ⟨.stays _ _ _ rfl, fun hok => absurd hok he⟩
  case isFalse =>
  split
  case h_1 => exact ⟨.stays _ _ _ rfl, nofun⟩
  case h_2 so2 _ =>
    have happ := dgramAppend_spec (s.setSock a.so v) a hfill so2
    exact ⟨happ.1.setSock, happ.2⟩

theorem sendStream_spec (s : State) (a : SendArgs) (hfill : Filled control) :
    Outcome s control (sendStream s a control) ∧
      ((sendStream s a control).1 = .ok → ¬Reaches s a ∨ a.append = true →
        (sendStream s a control).2.1 = []) := by
  rcases connectFor_spec s a (!(s.socks a.so).connected) with ⟨v, hv, hmore, hconn⟩
  unfold sendStream
  dsimp only
  rw [hv]
  split
  case isTrue he => exact ⟨.stays _ _ _ rfl, fun hok => absurd hok he⟩
  case isFalse he =>
  split
  case isTrue => exact ⟨.stays _ _ _ rfl, nofun⟩
  case isFalse hsend =>
  split
  case h_1 => exact ⟨.stays _ _ _ rfl, nofun⟩
  case h_2 so2 hso2 =>
  have happ := streamAppend_spec (s.setSock a.so v) a hfill so2
  refine ⟨happ.1.setSock, fun _ hkept => happ.2 (hkept.resolve_left fun hreach => hreach ?_)⟩
  rw [setSock_self] at hsend hso2
  refine ⟨?_, hmore ▸ Bool.eq_false_iff.mpr hsend⟩
  have hc := hconn (not_not.mp he)
  rw [hso2] at hc
  cases hcase : (s.socks a.so).connected with
  | false | true =>
    rw [hcase] at hc
    exact hc.symm

theorem sendType_spec (s : State) (a : SendArgs) (hfill : Filled control) :
    Outcome s control (sendType s a control) ∧
      ((sendType s a control).1 = .ok → Kept s a → (sendType s a control).2.1 = []) := by
  unfold sendType Kept
  split
  case h_1 htype =>
    have h := sendDgram_spec s a hfill
    exact ⟨h.1, fun hok _ => h.2 hok⟩
  case h_2 htype =>
    have h := sendStream_spec s a hfill
    refine ⟨h.1, fun hok hkept => h.2 hok (hkept.resolve_left ?_)⟩
    rw [htype]
    exact nofun
  case h_3 htype =>
  have h := sendStream_spec s a hfill
  refine ⟨h.1, fun hok hkept => h.2 hok (hkept.resolve_left ?_)⟩
  rw [htype]
  exact nofun

theorem Balanced.setSocks {socks : Nat → Sock} (h : Balanced files s L) :
    Balanced files { s with socks := socks } L :=
  ⟨h.rights, h.msgcount, h.fcount⟩

theorem held_enqueue (s : State) (so2 : Nat) (c : List Mbuf) :
    held (enqueue s so2 c) = held s ++ fileptrs c := by
  simp only [held, enqueue, List.map_append, List.map_map, fileptrs_append]
  congr 2
  exact List.map_id c

theorem filled_enqueue (so2 : Nat) (hs : Filled (s.queued.map (fun e => e.2))) (hc : Filled c) :
    Filled ((enqueue s so2 c).queued.map (fun e => e.2)) := by
  intro hin
  simp only [enqueue, List.map_append, List.map_map, List.mem_append] at hin
  rcases hin with hin | hin
  · exact hs hin
  · exact hc (by simpa using hin)

/-- Taking apart what is in no receive buffer conserves. -/
theorem Conserves.dispose (hbal : Balanced files s (fileptrs c ++ held s))
    (hfill : Filled (s.queued.map (fun e => e.2))) : Conserves files (dispose files s c) := by
  have hsame := freerights_same files s (fileptrs c)
  unfold Unp.dispose
  refine ⟨?_, hsame.queued ▸ hfill⟩
  rw [held, hsame.queued]
  exact hbal.freerights _ _ _

/-- The rest of a send conserves: an entry of the chain is on a receive buffer
    afterwards, or it is counted out again. -/
theorem sendRest_conserves (hbal : Balanced files s (held s ++ fileptrs control))
    (hfill₀ : Filled (s.queued.map (fun e => e.2))) (hfill : Filled control)
    (hkept : fileptrs control = [] ∨ Kept s a) :
    Conserves files (sendRest files s a control).2 := by
  rcases sendType_spec s a hfill with ⟨hout, hok⟩
  unfold sendRest
  dsimp only
  generalize sendType s a control = r at hout hok ⊢
  cases hout with
  | stays e c socks hc =>
    -- Shutting the socket down changes its flags at most.
    have hs : ∃ socks', (if a.eof then ({ s with socks := socks } : State).setSock a.so
        { socks a.so with cantsendmore := true } else { s with socks := socks }) =
        { s with socks := socks' } := by
      cases a.eof with
      | false | true => exact ⟨_, rfl⟩
    rcases hs with ⟨socks', hs⟩
    dsimp only at hok ⊢
    rw [hs]
    rw [← hc] at hbal hkept
    split
    case isTrue =>
      exact .dispose (hbal.setSocks.perm List.perm_append_comm) hfill₀
    case isFalse hnone =>
    have hptrs : fileptrs c = [] := by
      by_cases he : e = .ok
      · rcases hkept with h | h
        · exact h
        · rw [hok he h]
          rfl
      have hnil : c = [] := by
        by_contra hne
        exact hnone ⟨hne, he⟩
      rw [hnil]
      rfl
    rw [hptrs, List.append_nil] at hbal
    exact ⟨hbal.setSocks, hfill₀⟩
  | queued so2 c socks hc hfillc =>
    rw [if_neg (fun h => h.1 rfl)]
    rw [← hc, ← held_enqueue s so2 c] at hbal
    have hq : Balanced files (enqueue s so2 c) (held (enqueue s so2 c)) :=
      ⟨hbal.rights, hbal.msgcount, hbal.fcount⟩
    have hf := filled_enqueue so2 hfill₀ hfillc
    cases a.eof with
    | false | true => exact ⟨hq.setSocks, hf⟩

theorem Kept.congr {s' : State} (h : SameQueues s s') (hk : Kept s a) : Kept s' a := by
  unfold Kept Reaches at hk ⊢
  rwa [h.socks]

theorem uipcSend_conserves (h : Conserves files s) (hcare : Careful files s (.send a)) :
    ∃ r, uipcSend files s a = some r ∧ Conserves files r.2 := by
  unfold uipcSend
  cases hoob : a.oob with
  | true => exact ⟨_, rfl, h⟩
  | false =>
    rw [if_neg Bool.false_ne_true]
    cases hctl : a.control with
    | none =>
      refine ⟨_, rfl, sendRest_conserves ?_ h.filled nofun (.inl rfl)⟩
      rw [show fileptrs [] = [] from rfl, List.append_nil]
      exact h.balanced
    | some b =>
      have htidy := hcare hoob b hctl
      rcases internalizeLoop_spec (L := held s) _ false false [] s
        (by rw [show fileptrs [] = [] from rfl, List.append_nil]; exact h.balanced) nofun
        (fun _ => rfl) htidy with ⟨r, hr, hsame, hbal, hfill, herr, hkept⟩
      have hheld : held r.2.2 = held s := by rw [held, hsame.queued, held]
      have hfill₀ : Filled (r.2.2.queued.map (fun e => e.2)) := hsame.queued ▸ h.filled
      rw [← hheld] at hbal
      dsimp only
      rw [internalize, hr, Option.bind_some]
      split
      case isTrue he =>
        rw [herr he, List.append_nil] at hbal
        exact ⟨_, rfl, hbal, hfill₀⟩
      case isFalse =>
        exact ⟨_, rfl, sendRest_conserves hbal hfill₀ hfill (hkept.imp_right (.congr hsame))⟩

/-- Receiving a mbuf that was taken off its receive buffer. -/
theorem externalize_conserves {m : Mbuf} {wanted alloc fdsOk : Bool}
    (hbal : Balanced files s (fileptrs [m] ++ held s))
    (hfill : Filled (s.queued.map (fun e => e.2))) :
    Conserves files (externalize files s m wanted alloc fdsOk).2 := by
  have hfree : Conserves files (dispose files s [m]) := .dispose hbal hfill
  unfold externalize
  cases m with
  | rights fps =>
    have hptrs : fileptrs [.rights fps] = fps := List.append_nil fps
    rw [dispose, hptrs] at hfree
    rw [hptrs] at hbal
    dsimp only
    split
    case isTrue => exact hfree
    case isFalse =>
    split
    case isTrue => exact hfree
    case isFalse =>
    split
    case isTrue => exact hfree
    case isFalse =>
    have hsame : SameQueues s (fps.foldl (install files) s) := .foldl (install_same files) fps s
    refine ⟨?_, hsame.queued ▸ hfill⟩
    rw [held, hsame.queued]
    exact hbal.install _ _ _
  | other type =>
    dsimp only
    split
    case isTrue => exact ⟨hbal, hfill⟩
    case isFalse => exact ⟨hbal, hfill⟩

/-- The mbufs that are taken off the receive buffers, and those that stay. -/
theorem Conserves.split {q c : List (Nat × Mbuf)} (h : Conserves files s)
    (hp : s.queued.Perm (c ++ q)) :
    Balanced files { s with queued := q } (fileptrs (c.map (fun e => e.2)) ++
        held { s with queued := q }) ∧ Filled (q.map (fun e => e.2)) := by
  refine ⟨?_, fun hin => h.filled ?_⟩
  · have hb : Balanced files { s with queued := q } (held s) :=
      ⟨h.balanced.rights, h.balanced.msgcount, h.balanced.fcount⟩
    refine hb.perm ?_
    rw [held, held, ← fileptrs_append, ← List.map_append]
    exact fileptrs_perm (hp.map _)
  · rw [(hp.map _).mem_iff, List.map_append]
    exact List.mem_append_right _ hin

theorem step_conserves (o : Op) (h : Conserves files s) (hcare : Careful files s o) :
    ∃ s', step files s o = some s' ∧ Conserves files s' := by
  cases o with
  | send a =>
    rcases uipcSend_conserves h hcare with ⟨r, hr, hcons⟩
    exact ⟨r.2, by rw [step, hr]; rfl, hcons⟩
  | receive so wanted alloc fdsOk =>
    rw [step]
    cases he : s.queued.find? (fun e => e.1 = so) with
    | none => exact ⟨s, rfl, h⟩
    | some e =>
      have hsplit := h.split (c := [e])
        (List.perm_cons_erase (List.mem_of_find?_eq_some he))
      exact ⟨_, rfl, externalize_conserves hsplit.1 hsplit.2⟩
  | disposeSo so =>
    have hperm : s.queued.Perm (s.queued.filter (fun e => e.1 = so) ++
        s.queued.filter (fun e => e.1 ≠ so)) := by
      have := (List.filter_append_perm (fun e : Nat × Mbuf => decide (e.1 = so)) s.queued).symm
      simpa only [ne_eq, decide_not] using this
    have hsplit := h.split hperm
    exact ⟨_, rfl, .dispose hsplit.1 hsplit.2⟩
  | processDefers =>
    have hq : ∀ (fps : List Nat) (s : State), (fps.foldl closef s).queued = s.queued := by
      intro fps
      induction fps with
      | nil => intro s; rfl
      | cons fp fps ih => intro s; exact ih (closef s fp)
    refine ⟨_, rfl, ?_, ?_⟩
    · rw [held, hq]
      exact h.balanced.processDefers s.defers s
    · rw [hq]
      exact h.filled
  | setSock so v => exact ⟨_, rfl, h.balanced.setSocks, h.filled⟩
  | hold fp n =>
    refine ⟨_, rfl, ⟨h.balanced.rights, h.balanced.msgcount, fun g => ?_⟩, h.filled⟩
    have := h.balanced.fcount g
    dsimp only
    by_cases hg : g = fp
    · rw [hg] at this ⊢
      rw [update_self, update_self, this]
      show _ = _ + n + _ + ((held s).count fp : Int)
      omega
    · rw [update_of_ne hg, update_of_ne hg]
      exact this

theorem init_conserves (files : Files) : Conserves files init :=
  ⟨⟨rfl, fun _ => rfl, fun _ => rfl⟩, nofun⟩

/-- What a send that puts nothing on a receive buffer leaves as it was. A reference
    that waits for the task to close the file is not counted any more. -/
def Unchanged (s s' : State) : Prop :=
  s'.rights = s.rights ∧ s'.msgcount = s.msgcount ∧
    ∀ fp, s'.fcount fp - s'.others fp - s'.defers.count fp =
      s.fcount fp - s.others fp - s.defers.count fp

theorem Conserves.unchanged {s' : State} (h : Conserves files s) (h' : Conserves files s')
    (hq : s'.queued = s.queued) : Unchanged s s' := by
  have hheld : held s' = held s := by rw [held, hq, held]
  refine ⟨?_, ?_, fun fp => ?_⟩
  · rw [h'.balanced.rights, hheld, h.balanced.rights]
  · funext u
    rw [h'.balanced.msgcount, hheld, h.balanced.msgcount]
  have h₁ := h'.balanced.fcount fp
  have h₂ := h.balanced.fcount fp
  rw [hheld] at h₁
  omega

/-- Along every run whose sends carry tidy control buffers, `unp_rights`,
    `unp_msgcount` and the references are those of the entries on receive buffers, and
    a send that queues nothing changes none of them. -/
theorem rights_conserved (files : Files) (ops : List Op)
    (h : EveryStep (step files) (Careful files) init ops) :
    ∃ s, runOps (step files) init ops = some s ∧ Conserves files s ∧
      ∀ a, Careful files s (.send a) → ∃ r, uipcSend files s a = some r ∧
        (r.2.queued = s.queued → Unchanged s r.2) := by
  rcases runOps_progress_of (step files) (Careful files) (Conserves files)
    (fun s o hs hc => step_conserves o hs hc) ops init (init_conserves files) h with ⟨s, hrun, hs⟩
  refine ⟨s, hrun, hs, fun a ha => ?_⟩
  rcases uipcSend_conserves hs ha with ⟨r, hr, hr'⟩
  exact ⟨r, hr, hs.unchanged hr'⟩

/-- One descriptor, number 3, which is file 10. -/
def oneRight : List (BitVec 8) :=
  [20, 0, 0, 0, 0xff, 0xff, 0, 0, 1, 0, 0, 0, 0, 0, 0, 0, 3, 0, 0, 0, 0, 0, 0, 0]

/-- File 10 is a local socket. -/
def oneFile : Files := ⟨fun fp => if fp = 10 then some 1 else none, fun _ => true⟩

def sendRight (b : List (BitVec 8)) : SendArgs where
  so := 0
  oob := false
  eof := false
  nam := none
  control := some b
  fget := fun fd => if fd = 3 then some 10 else none
  alloc := fun _ => true
  credAlloc := true
  append := true

/-- An example: a descriptor is sent and received, and another one is disposed of. -/
theorem rights_conserved_example : ∃ s, runOps (step oneFile) init
        [.setSock 0 ⟨.stream, some 1, true, false, false⟩, .hold 10 1, .send (sendRight oneRight),
          .receive 1 true true true, .send (sendRight oneRight), .disposeSo 1, .processDefers] =
        some s ∧ Conserves oneFile s ∧
      ∀ a, Careful oneFile s (.send a) → ∃ r, uipcSend oneFile s a = some r ∧
        (r.2.queued = s.queued → Unchanged s r.2) := by
  refine rights_conserved oneFile _ ?_
  decide

/-- A second message whose level is wrong fails the send, but the descriptor of the
    first one stays counted although no receive buffer holds it. -/
theorem failed_message_leaks : ∃ s, runOps (step oneFile) init
        [.setSock 0 ⟨.stream, some 1, true, false, false⟩, .hold 10 1,
          .send (sendRight (oneRight ++ [12, 0, 0, 0, 0, 0, 0, 0, 1, 0, 0, 0]))] = some s ∧
      s.rights = 1 ∧ s.msgcount 1 = 1 ∧ s.fcount 10 = s.others 10 + 1 ∧ held s = [] := by
  have hrun : (runOps (step oneFile) init
      [.setSock 0 ⟨.stream, some 1, true, false, false⟩, .hold 10 1,
        .send (sendRight (oneRight ++ [12, 0, 0, 0, 0, 0, 0, 0, 1, 0, 0, 0]))]).any (fun s =>
      s.rights = 1 ∧ s.msgcount 1 = 1 ∧ s.fcount 10 = s.others 10 + 1 ∧ held s = []) = true := by
    decide
  rcases Option.any_eq_true _ _ |>.mp hrun with ⟨s, hs, h⟩
  exact ⟨s, hs, of_decide_eq_true h⟩

end FreeBSDKern.Unp
