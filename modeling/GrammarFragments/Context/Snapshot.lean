import GrammarFragments.Ascii
import GrammarFragments.Context.Basic
import GrammarFragments.Text.Hex

/-!
The snapshot of a context: one byte for the in-string flag and then the bytes of the tag, which the
length of the snapshot delimits. The empty snapshot stands for the initial context. A snapshot is
refused when its flag is neither zero nor one, and otherwise at the first byte that no tag may hold;
a context that does not fit into a buffer leaves the buffer alone.
-/

set_option autoImplicit false
set_option relaxedAutoImplicit false

namespace GrammarFragments

/-- Why a context could not be written to a buffer, or read from a snapshot. -/
inductive SnapshotError
  | bufferTooSmall (needed available : Nat)
  | invalidFlag (byte : UInt8)
  | invalidTagByte (byte : UInt8) (offset : Nat)
  deriving DecidableEq, Repr

/-- The wording of a snapshot error. -/
def SnapshotError.message : SnapshotError → String
  | .bufferTooSmall needed available =>
    s!"scanner state needs {needed} bytes but the buffer holds {available}"
  | .invalidFlag byte => s!"invalid in-string flag byte {hexByteText byte}"
  | .invalidTagByte byte offset =>
    s!"invalid quoted-string tag byte {hexByteText byte} at offset {offset}"

namespace Context

/-- The byte that stands for the in-string flag. -/
def flagByte (inString : Bool) : UInt8 := if inString then 1 else 0

/-- The snapshot of a context. -/
def encode (context : Context) : List UInt8 := flagByte context.inString :: context.tag

/-- The length of the snapshot of a context. -/
def encodedLength (context : Context) : Nat := 1 + context.tag.length

/-- The first byte that no tag may hold, with its offset, in a tag whose first byte has the given
offset. -/
def firstInvalid (offset : Nat) : List UInt8 → Option (UInt8 × Nat)
  | [] => none
  | byte :: tag => if isTagByte byte then firstInvalid (offset + 1) tag else some (byte, offset)

/-- The flag that a byte stands for. -/
def decodeFlag (byte : UInt8) : Except SnapshotError Bool :=
  if byte = 0 then .ok false else if byte = 1 then .ok true else .error (.invalidFlag byte)

/-- Reads a snapshot. A fault of the flag is reported before any fault of the tag; offsets count the
flag. -/
def decode : List UInt8 → Except SnapshotError Context
  | [] => .ok initial
  | flag :: tag =>
    match decodeFlag flag with
    | .error fault => .error fault
    | .ok inString =>
      match firstInvalid 1 tag with
      | some (byte, offset) => .error (.invalidTagByte byte offset)
      | none => .ok ⟨inString, tag⟩

/-- Writes the flag and the tag over the first bytes of a buffer, and gives back the number of bytes
written together with the buffer afterwards. -/
def writeTo (context : Context) (buffer : List UInt8) : Except SnapshotError Nat × List UInt8 :=
  let needed := context.encodedLength
  if needed ≤ buffer.length then
    (.ok needed, flagByte context.inString :: (context.tag ++ buffer.drop needed))
  else (.error (.bufferTooSmall needed buffer.length), buffer)

end Context

end GrammarFragments
