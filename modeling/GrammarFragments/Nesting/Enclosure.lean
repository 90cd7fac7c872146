import GrammarFragments.Lexeme.CharLiteral
import GrammarFragments.Lexeme.QuotedText
import GrammarFragments.Lexeme.StringLiteral

/-!
Groups nest: a comment may hold comments, a code block may hold blocks and comments, a bracket group
may hold groups and comments. Inside of a group the text falls into units: a string literal, a
character literal, a quoted text, a word or a single character. A closer inside of such a unit
closes nothing.

`turn` says what the character just taken makes of the innermost open group. Code blocks and bracket
groups commit the end of the token after every complete unit but never after their closer, so the
token covers the content alone; a comment leaves the end of the token to its surroundings.

Main statements: a turn leaves a suffix of the rest (`rest_turn_suffix`), and it hands a character
back only if it has passed one (`length_rest_turn_lt`).
-/

set_option autoImplicit false
set_option relaxedAutoImplicit false

namespace GrammarFragments

/-- The constructs that nest. -/
inductive Enclosure
  /-- From `(*` to `*)`. -/
  | comment
  /-- Embedded code, from a brace to the brace that balances it. -/
  | code
  /-- From a square bracket to the one that balances it. -/
  | bracket
  deriving DecidableEq, Repr

/-- What the character just taken makes of the innermost open group. -/
inductive Turn (ρ : Type)
  /-- It closes the group. -/
  | close (reader : ρ) (context : Context)
  /-- It opens a group inside of the group. -/
  | nest (inner : Enclosure) (reader : ρ) (context : Context)
  /-- It may belong to the closing delimiter, so the end of the token stays where it is. -/
  | hold (reader : ρ) (context : Context)
  /-- It starts a unit, which was passed; a probe may have handed back the character after it. -/
  | unit (pending : Option UInt8) (reader : ρ) (context : Context)

namespace Turn

variable {ρ : Type}

/-- The reader after the turn. -/
def reader : Turn ρ → ρ
  | close reader _ => reader
  | nest _ reader _ => reader
  | hold reader _ => reader
  | unit _ reader _ => reader

/-- The character handed back by the turn. -/
def pending : Turn ρ → Option UInt8
  | unit pending _ _ => pending
  | _ => none

end Turn

namespace Enclosure

open Reader

/-- The group commits the end of the token as it goes along. -/
def commits : Enclosure → Bool
  | comment => false
  | code => true
  | bracket => true

/-- The last character of the closing delimiter. -/
def closer : Enclosure → UInt8
  | comment => Ascii.parenClose
  | code => Ascii.braceClose
  | bracket => Ascii.bracketClose

theorem closer_ne_zero (group : Enclosure) : group.closer ≠ 0 := by
  cases group with
  | comment => decide
  | code => decide
  | bracket => decide

section Mark

variable {ρ : Type} [Reader ρ]

/-- Commits the end of the token if the group does so. -/
def mark (group : Enclosure) (reader : ρ) : ρ := if group.commits then commit reader else reader

@[simp]
theorem rest_mark (group : Enclosure) (reader : ρ) : rest (group.mark reader) = rest reader := by
  rw [mark]
  split
  · exact rest_commit reader
  · rfl

theorem current_mark (group : Enclosure) (reader : ρ) :
    current (group.mark reader) = current reader := by
  rw [current_eq_headD, rest_mark, ← current_eq_headD]

theorem atEnd_mark (group : Enclosure) (reader : ρ) :
    atEnd (group.mark reader) = atEnd reader := by
  rw [atEnd_eq_isEmpty, rest_mark, ← atEnd_eq_isEmpty]

end Mark

variable {ρ : Type} [SeekReader ρ]

/-- The turns that are the same in every group. The apostrophe is committed before the probe,
because the probe may pass the closer of the group and hand it back. -/
def commonTurn (group : Enclosure) (byte : UInt8) (reader : ρ) (context : Context) : Turn ρ :=
  if byte = Ascii.parenOpen then
    if current reader = Ascii.star then .nest .comment (advance reader) context
    else .unit none reader context
  else if byte = Ascii.apostrophe then
    let (literal, stopped) := CharLiteral.probe (group.mark reader)
    .unit literal.pending stopped context
  else if byte = Ascii.doubleQuote then .unit none (StringLiteral.finish reader) context
  else if isWordStart byte then .unit none (advanceWhile isWordPart reader) context
  else .unit none reader context

/-- A turn inside of a comment. A quoted text is passed as far as it goes. -/
def commentTurn (byte : UInt8) (reader : ρ) (context : Context) : Turn ρ :=
  if byte = Ascii.star ∧ current reader = Ascii.parenClose then .close (advance reader) context
  else if byte = Ascii.braceOpen then
    let quoted := QuotedText.read reader context
    .unit none quoted.reader quoted.context
  else commonTurn comment byte reader context

/-- A turn inside of a code block. A brace that opens no complete quoted text opens a block, and a
percent sign in front of the closer belongs to the closing delimiter. -/
def codeTurn (byte : UInt8) (reader : ρ) (context : Context) : Turn ρ :=
  if byte = Ascii.braceClose then .close reader context
  else if byte = Ascii.braceOpen then
    let quoted := QuotedText.read reader context
    if quoted.matched then .unit none quoted.reader quoted.context
    else .nest .code quoted.reader quoted.context
  else if byte = Ascii.percent ∧ current reader = Ascii.braceClose then .hold reader context
  else commonTurn code byte reader context

/-- A turn inside of a bracket group, to which braces are characters like any other. -/
def bracketTurn (byte : UInt8) (reader : ρ) (context : Context) : Turn ρ :=
  if byte = Ascii.bracketClose then .close reader context
  else if byte = Ascii.bracketOpen then .nest .bracket reader context
  else commonTurn bracket byte reader context

/-- What `byte`, which has just been taken, makes of the group. -/
def turn : Enclosure → UInt8 → ρ → Context → Turn ρ
  | comment => commentTurn
  | code => codeTurn
  | bracket => bracketTurn

/-! ### What a turn passes -/

theorem rest_commonTurn_suffix (group : Enclosure) (byte : UInt8) (reader : ρ) (context : Context) :
    rest (commonTurn group byte reader context).reader <:+ rest reader := by
  rw [commonTurn]
  split
  · split
    · exact rest_advance_suffix reader
    · exact List.suffix_rfl
  · split
    · exact rest_mark group reader ▸ CharLiteral.rest_probe_suffix (group.mark reader)
    · split
      · exact StringLiteral.rest_finish_suffix reader
      · split
        · exact rest_advanceWhile_suffix _ reader
        · exact List.suffix_rfl

/-- The reader after a turn has a suffix of the rest still to read. -/
theorem rest_turn_suffix (group : Enclosure) (byte : UInt8) (reader : ρ) (context : Context) :
    rest (turn group byte reader context).reader <:+ rest reader := by
  cases group with
  | comment =>
    rw [turn, commentTurn]
    split
    · exact rest_advance_suffix reader
    · split
      · exact QuotedText.rest_read_suffix reader context
      · exact rest_commonTurn_suffix _ byte reader context
  | code =>
    simp only [turn, codeTurn]
    split
    · exact List.suffix_rfl
    · split
      · split
        · exact QuotedText.rest_read_suffix reader context
        · exact QuotedText.rest_read_suffix reader context
      · split
        · exact List.suffix_rfl
        · exact rest_commonTurn_suffix _ byte reader context
  | bracket =>
    rw [turn, bracketTurn]
    split
    · exact List.suffix_rfl
    · split
      · exact List.suffix_rfl
      · exact rest_commonTurn_suffix _ byte reader context

theorem length_rest_commonTurn_lt {group : Enclosure} {byte : UInt8} {reader : ρ}
    {context : Context}
    (hpending : (commonTurn group byte reader context).pending.isSome) :
    (rest (commonTurn group byte reader context).reader).length < (rest reader).length := by
  rw [commonTurn] at hpending ⊢
  split at hpending
  · split at hpending <;> simp [Turn.pending] at hpending
  · rename_i hparen
    rw [if_neg hparen]
    split at hpending
    · rename_i hquote
      rw [if_pos hquote]
      rw [← rest_mark group reader]
      exact CharLiteral.length_rest_probe_lt hpending
    · split at hpending
      · simp [Turn.pending] at hpending
      · split at hpending <;> simp [Turn.pending] at hpending

/-- A turn that hands a character back has passed it. -/
theorem length_rest_turn_lt {group : Enclosure} {byte : UInt8} {reader : ρ} {context : Context}
    (hpending : (turn group byte reader context).pending.isSome) :
    (rest (turn group byte reader context).reader).length < (rest reader).length := by
  cases group with
  | comment =>
    rw [turn, commentTurn] at hpending ⊢
    split at hpending
    · simp [Turn.pending] at hpending
    · rename_i hclose
      rw [if_neg hclose]
      split at hpending
      · simp [Turn.pending] at hpending
      · rename_i hbrace
        rw [if_neg hbrace]
        exact length_rest_commonTurn_lt hpending
  | code =>
    simp only [turn, codeTurn] at hpending ⊢
    split at hpending
    · simp [Turn.pending] at hpending
    · rename_i hclose
      rw [if_neg hclose]
      split at hpending
      · split at hpending <;> simp [Turn.pending] at hpending
      · rename_i hbrace
        rw [if_neg hbrace]
        split at hpending
        · simp [Turn.pending] at hpending
        · rename_i hpercent
          rw [if_neg hpercent]
          exact length_rest_commonTurn_lt hpending
  | bracket =>
    rw [turn, bracketTurn] at hpending ⊢
    split at hpending
    · simp [Turn.pending] at hpending
    · rename_i hclose
      rw [if_neg hclose]
      split at hpending
      · simp [Turn.pending] at hpending
      · rename_i hopen
        rw [if_neg hopen]
        exact length_rest_commonTurn_lt hpending

end Enclosure

end GrammarFragments
