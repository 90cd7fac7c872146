import GrammarFragments.Fragment.Recognizers
import GrammarFragments.Reader.Bytes
import GrammarFragments.Scan.Event

/-!
A scan asks whether one of the permitted kinds of fragments starts at the reader. Blanks in front of
the fragment are skipped. Then exactly one recognizer is tried, in a fixed order: a comment, if the
text is not inside of a grammar-level string and goes on with `(*`; embedded code; a type; the
payload of an attribute; a double quote, if the text goes on with one.

The test for a comment passes the parenthesis. A parenthesis without a star is an ordinary character
to every other recognizer, so they go on after it. A scan that fails produces no fragment, however
far the reader has moved.
-/

set_option autoImplicit false
set_option relaxedAutoImplicit false

namespace GrammarFragments

open Reader

/-- The recognizer that was tried, if one applied, and whether it matched. -/
structure Attempt (ρ : Type) where
  tried : Option (FragmentKind × Bool)
  reader : ρ
  context : Context

/-- The result of a scan. -/
structure Scan (ρ : Type) where
  /-- The kind of the fragment that was found. -/
  kind : Option FragmentKind
  event : Event
  reader : ρ
  context : Context

namespace Attempt

variable {ρ : Type}

/-- The attempt that ended with the given outcome. -/
def ofOutcome (kind : FragmentKind) (outcome : Outcome ρ) : Attempt ρ :=
  ⟨some (kind, outcome.matched), outcome.reader, outcome.context⟩

/-- The kind of the fragment that was found. -/
def kind? (attempt : Attempt ρ) : Option FragmentKind :=
  match attempt.tried with
  | some (kind, true) => some kind
  | _ => none

/-- An attempt finds a fragment exactly when its recognizer matched. -/
theorem isSome_kind?_ofOutcome (kind : FragmentKind) (outcome : Outcome ρ) :
    (ofOutcome kind outcome).kind?.isSome = outcome.matched := by
  rw [ofOutcome, kind?]
  cases outcome.matched with
  | true => rfl
  | false => rfl

/-- The report on an attempt. -/
def event (requested : Request) (attempt : Attempt ρ) : Event :=
  match attempt.tried with
  | some (kind, matched) => .tried requested kind matched attempt.context.inString
  | none => .noneApplies requested

variable [SeekReader ρ]

/-- Passes a double quote, which opens a grammar-level string or closes the open one. -/
def toggleString (reader : ρ) (context : Context) : Attempt ρ :=
  ⟨some (.quoteMark, true), commit (advance reader),
    { context with inString := !context.inString }⟩

/-- Tries a comment whose parenthesis has been passed, and ends the token after it. -/
def ofComment (reader : ρ) (context : Context) : Attempt ρ :=
  let outcome := readComment reader context
  ofOutcome .comment
    { outcome with reader := if outcome.matched then commit outcome.reader else outcome.reader }

/-- Tries the kinds other than comments, where `first` is the first character after the blanks. -/
def afterComment (requested : Request) (first : UInt8) (reader : ρ) (context : Context) :
    Attempt ρ :=
  if requested.permits .code then ofOutcome .code (readCode reader context)
  else if requested.permits .typeExpr then ofOutcome .typeExpr (readType reader context)
  else if requested.permits .payload then ofOutcome .payload (readPayload reader context)
  else if requested.permits .quoteMark ∧ first = Ascii.doubleQuote then toggleString reader context
  else ⟨none, reader, context⟩

/-- Tries the first recognizer that applies, after the blanks. -/
def start (requested : Request) (reader : ρ) (context : Context) : Attempt ρ :=
  let first := current reader
  if context.inString = false ∧ requested.permits .comment ∧ first = Ascii.parenOpen then
    let second := advance reader
    if current second = Ascii.star then ofComment second context
    else afterComment requested first second context
  else afterComment requested first reader context

end Attempt

/-- Looks for a fragment of one of the permitted kinds. On success its end is committed. -/
def scan {ρ : Type} [SeekReader ρ] (requested : Request) (reader : ρ) (context : Context) :
    Scan ρ :=
  let attempt := Attempt.start requested (skipWhile isBlank reader) context
  ⟨attempt.kind?, attempt.event requested, attempt.reader, attempt.context⟩

namespace Source

/-- What a scan of a source finds. -/
structure Finding where
  fragment : Option Fragment
  event : Event
  context : Context
  /-- The offset of a character that could not be passed. The rest counts only without one. -/
  overflow : Option Nat

/-- Looks in a source for a fragment of one of the permitted kinds that starts at an offset, blanks
apart. -/
def scanAt (source : Source) (offset : Nat) (requested : Request) (context : Context) : Finding :=
  let found := scan requested (source.readerAt offset) context
  let start := found.reader.tokenStart
  ⟨found.kind.map fun kind ↦ ⟨kind, start, found.reader.tokenEnd - start⟩, found.event,
    found.context, found.reader.overflow⟩

theorem overflow_scanAt (source : Source) (offset : Nat) (requested : Request)
    (context : Context) :
    (source.scanAt offset requested context).overflow =
      (scan requested (source.readerAt offset) context).reader.overflow :=
  rfl

end Source

end GrammarFragments
