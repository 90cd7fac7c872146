import GrammarFragments.Reader.HostLexer
import GrammarFragments.Scan.Basic
import GrammarFragments.Scan.Restore

/-!
A scanner in the service of a host engine. The host creates and destroys the scanner, takes a
snapshot of it into a buffer of a fixed size after every scan, and restores it when it parses a part
of the text again. Without a scanner every request is answered with nothing.
-/

set_option autoImplicit false
set_option relaxedAutoImplicit false

namespace GrammarFragments

/-- The scanner of a host engine, if there is one, by its memory. -/
structure HostSession where
  scanner : Option Context
  deriving DecidableEq

namespace HostSession

/-- The size of the buffer into which a host takes its snapshots. -/
def snapshotCapacity : Nat := 1024

/-- No scanner. -/
def absent : HostSession := ⟨none⟩

/-- A new scanner in the place of the old one. -/
def create (_session : HostSession) : HostSession := ⟨some .initial⟩

/-- The scanner is gone. -/
def destroy (_session : HostSession) : HostSession := absent

/-- A buffer of the host, before anything is written to it. -/
def blankBuffer : List UInt8 := List.replicate snapshotCapacity 0

/-- The bytes of the snapshot in the buffer of the host. A context that does not fit is written as
nothing, which stands for the initial one. -/
def snapshot (session : HostSession) : List UInt8 × List Event :=
  match session.scanner with
  | none => ([], [])
  | some context =>
    match context.writeTo blankBuffer with
    | (.ok written, buffer) => (buffer.take written, [])
    | (.error fault, _) => ([], [.snapshotTooLarge fault])

/-- Restores the scanner from a snapshot. -/
def restore (session : HostSession) (bytes : List UInt8) : HostSession × List Event :=
  match session.scanner with
  | none => (session, [])
  | some _ =>
    let restored := Context.restore bytes
    (⟨some restored.context⟩, restored.events)

/-- The answer to one scan: whether a fragment was found, the lexer as the scan left it, and what
was reported. -/
structure Answer where
  matched : Bool
  lexer : HostLexer
  events : List Event

/-- The lexer with the symbol number of the kind that was found; as it was, if none was found. -/
def announce (kind : Option FragmentKind) (lexer : HostLexer) : HostLexer :=
  match kind with
  | some kind => { lexer with resultSymbol := some kind.symbol }
  | none => lexer

/-- Scans the text of a lexer for the kinds whose flags are set. -/
def scan (session : HostSession) (lexer : HostLexer) (flags : List Bool) : HostSession × Answer :=
  match session.scanner with
  | none => (session, ⟨false, lexer, []⟩)
  | some context =>
    let found := GrammarFragments.scan (Request.ofFlags flags) lexer context
    (⟨some found.context⟩,
      ⟨found.kind.isSome, announce found.kind found.reader, [found.event]⟩)

end HostSession

end GrammarFragments
