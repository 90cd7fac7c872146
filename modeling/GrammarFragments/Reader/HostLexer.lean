import GrammarFragments.Reader.Basic

/-!
The lexer of a host engine. It gives one code for each character of its text and is asked to move or
to fix the end of the token; it keeps a journal of the calls it receives. Codes outside of ASCII,
negative ones included, are all reported as `0x80`. A move at the end of the text is not passed on
to the host, so it leaves no trace in the journal, while every commitment does.
-/

set_option autoImplicit false
set_option relaxedAutoImplicit false

namespace GrammarFragments

/-- A call that a host lexer receives. -/
inductive LexerCall
  | advance
  | skip
  | commit
  deriving DecidableEq, Repr

/-- The letter of a call in a written journal. -/
def LexerCall.letter : LexerCall → String
  | .advance => "a"
  | .skip => "s"
  | .commit => "m"

/-- The state of a host lexer. The journal has the latest call first. -/
structure HostLexer where
  codes : Array Int
  position : Nat
  tokenStart : Nat
  committed : Option Nat
  /-- The symbol number that a scan has left for the host, absent before the first one. -/
  resultSymbol : Option Nat
  journal : List LexerCall

namespace HostLexer

/-- The lexer at the start of a sequence of codes. -/
def ofCodes (codes : Array Int) : HostLexer := ⟨codes, 0, 0, none, none, []⟩

/-- The lexer at the start of a text, which has one code for each of its code points. -/
def ofText (text : String) : HostLexer :=
  ofCodes (text.toList.map fun char ↦ (char.toNat : Int)).toArray

/-- The code of the current character, zero at the end. -/
def code (lexer : HostLexer) : Int := lexer.codes.getD lexer.position 0

/-- The last committed end of the token; the current position as long as none was committed. -/
def tokenEnd (lexer : HostLexer) : Nat := lexer.committed.getD lexer.position

/-- The byte by which a code is reported. -/
def reportedByte (code : Int) : UInt8 :=
  if 0 ≤ code ∧ code < 0x80 then code.toNat.toUInt8 else 0x80

/-! ### The operations of a reader -/

/-- Passes the character here. -/
def advanceCode (lexer : HostLexer) : HostLexer :=
  if lexer.position < lexer.codes.size then
    { lexer with position := lexer.position + 1, journal := .advance :: lexer.journal }
  else lexer

/-- Passes the character here and starts the token after it. -/
def skipCode (lexer : HostLexer) : HostLexer :=
  if lexer.position < lexer.codes.size then
    { lexer with
      position := lexer.position + 1
      tokenStart := lexer.position + 1
      journal := .skip :: lexer.journal }
  else lexer

/-- Commits the end of the token here. -/
def commitEnd (lexer : HostLexer) : HostLexer :=
  { lexer with committed := some lexer.position, journal := .commit :: lexer.journal }

/-- The characters that are still to be read, each by its reported byte. -/
def reportedRest (lexer : HostLexer) : List UInt8 :=
  (lexer.codes.toList.drop lexer.position).map reportedByte

theorem reportedByte_zero : reportedByte 0 = 0 := by decide

theorem reportedRest_of_lt {lexer : HostLexer} (hposition : lexer.position < lexer.codes.size) :
    lexer.reportedRest = reportedByte lexer.code ::
      (lexer.codes.toList.drop (lexer.position + 1)).map reportedByte := by
  have hlength : lexer.position < lexer.codes.toList.length := by simpa using hposition
  rw [reportedRest, List.drop_eq_getElem_cons hlength, List.map_cons, code,
    Array.getD_eq_getD_getElem?, Array.getElem?_eq_getElem hposition, Option.getD_some,
    Array.getElem_toList]

theorem reportedRest_of_le {lexer : HostLexer} (hposition : lexer.codes.size ≤ lexer.position) :
    lexer.reportedRest = [] := by
  rw [reportedRest, List.drop_eq_nil_of_le (by simpa using hposition), List.map_nil]

theorem headD_reportedRest (lexer : HostLexer) :
    reportedByte lexer.code = lexer.reportedRest.headD 0 := by
  by_cases hposition : lexer.position < lexer.codes.size
  · rw [reportedRest_of_lt hposition, List.headD_cons]
  · rw [reportedRest_of_le (by omega), List.headD_nil, code, Array.getD_eq_getD_getElem?,
      Array.getElem?_eq_none (by omega), Option.getD_none, reportedByte_zero]

theorem isEmpty_reportedRest (lexer : HostLexer) :
    decide (lexer.codes.size ≤ lexer.position) = lexer.reportedRest.isEmpty := by
  by_cases hposition : lexer.position < lexer.codes.size
  · rw [reportedRest_of_lt hposition, List.isEmpty_cons, decide_eq_false (by omega)]
  · rw [reportedRest_of_le (by omega), List.isEmpty_nil, decide_eq_true (by omega)]

theorem reportedRest_advanceCode (lexer : HostLexer) :
    lexer.advanceCode.reportedRest = lexer.reportedRest.tail := by
  by_cases hposition : lexer.position < lexer.codes.size
  · rw [reportedRest_of_lt hposition, advanceCode, if_pos hposition, reportedRest, List.tail_cons]
  · rw [advanceCode, if_neg hposition, reportedRest_of_le (by omega), List.tail_nil]

theorem reportedRest_skipCode (lexer : HostLexer) :
    lexer.skipCode.reportedRest = lexer.reportedRest.tail := by
  by_cases hposition : lexer.position < lexer.codes.size
  · rw [reportedRest_of_lt hposition, skipCode, if_pos hposition, reportedRest, List.tail_cons]
  · rw [skipCode, if_neg hposition, reportedRest_of_le (by omega), List.tail_nil]

instance : Reader HostLexer where
  current lexer := reportedByte lexer.code
  atEnd lexer := lexer.codes.size ≤ lexer.position
  advance := advanceCode
  skip := skipCode
  commit := commitEnd
  rest := reportedRest
  current_eq_headD := headD_reportedRest
  atEnd_eq_isEmpty := isEmpty_reportedRest
  rest_advance := reportedRest_advanceCode
  rest_skip := reportedRest_skipCode
  rest_commit _ := rfl

instance : SeekReader HostLexer where
  seek := Reader.seekStepwise
  rest_seek := Reader.rest_advanceWhile fun byte ↦ !isStringStop byte

theorem rest_ofText (text : String) :
    Reader.rest (ofText text) = text.toList.map fun char ↦ reportedByte char.toNat := by
  show (ofText text).reportedRest = _
  simp only [reportedRest, ofText, ofCodes, List.drop_zero, List.map_map, Function.comp_def]

/-! ### The written journal -/

/-- Adds a call in front of a list of runs of equal calls. -/
def addToRuns (runs : List (LexerCall × Nat)) (call : LexerCall) : List (LexerCall × Nat) :=
  match runs with
  | (first, count) :: rest => if first = call then (first, count + 1) :: rest else (call, 1) :: runs
  | [] => [(call, 1)]

/-- The calls received, the earliest first, as runs of equal calls: a letter and a count for each.
-/
def writtenJournal (lexer : HostLexer) : String :=
  let runs := lexer.journal.foldl addToRuns []
  String.join (runs.map fun (call, count) ↦ call.letter ++ toString count)

/-- The same lexer with an empty journal. -/
def forgetJournal (lexer : HostLexer) : HostLexer := { lexer with journal := [] }

end HostLexer

end GrammarFragments
