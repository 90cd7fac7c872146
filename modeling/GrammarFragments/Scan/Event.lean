import GrammarFragments.Context.Snapshot
import GrammarFragments.Fragment.Request

/-!
What a scanner reports about its work.
-/

set_option autoImplicit false
set_option relaxedAutoImplicit false

namespace GrammarFragments

/-- A report of a scanner. -/
inductive Event
  /-- None of the permitted kinds has a recognizer that applies here. -/
  | noneApplies (requested : Request)
  /-- A recognizer was tried; `inString` is the flag after it. -/
  | tried (requested : Request) (kind : FragmentKind) (matched inString : Bool)
  /-- A snapshot of the given length could not be read. -/
  | snapshotDiscarded (fault : SnapshotError) (length : Nat)
  /-- The context is too large for the buffer of the host. -/
  | snapshotTooLarge (fault : SnapshotError)
  deriving DecidableEq, Repr

namespace Event

/-- One of the particulars of an event. -/
inductive Particular
  | text (value : String)
  | flag (value : Bool)
  | count (value : Nat)
  deriving DecidableEq, Repr

/-- How much attention an event asks for. -/
def level : Event → String
  | noneApplies _ => "TRACE"
  | tried .. => "TRACE"
  | snapshotDiscarded .. => "DEBUG"
  | snapshotTooLarge _ => "DEBUG"

/-- The wording of an event. -/
def message : Event → String
  | noneApplies _ => "no recognizer applies"
  | tried .. => "external scan"
  | snapshotDiscarded .. => "discarding undecodable scanner state"
  | snapshotTooLarge _ => "scanner state does not fit; serializing the default state"

/-- The particulars of an event, each with its name. -/
def particulars : Event → List (String × Particular)
  | noneApplies requested => [("valid", .text requested.describe)]
  | tried requested kind matched inString =>
    [("valid", .text requested.describe), ("kind", .text kind.nodeName),
      ("matched", .flag matched), ("in_string", .flag inString)]
  | snapshotDiscarded fault length => [("err", .text fault.message), ("len", .count length)]
  | snapshotTooLarge fault => [("err", .text fault.message)]

end Event

end GrammarFragments
