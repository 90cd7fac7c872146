import GrammarFragments.Nesting.Machine

/-!
One recognizer for each kind of fragment that has an extent. They are entered after the opening
delimiter, or after the parenthesis of a comment, and say whether the fragment was found complete.
An incomplete one reaches to the end of the text.
-/

set_option autoImplicit false
set_option relaxedAutoImplicit false

namespace GrammarFragments

open Reader

variable {ρ : Type} [SeekReader ρ]

/-- Reads a comment whose opening parenthesis has been passed. Without a star it is no comment, and
nothing is passed. -/
def readComment (reader : ρ) (context : Context) : Outcome ρ :=
  if current reader = Ascii.star then
    (Nesting.enter .comment [] (advance reader) context).run
  else ⟨false, reader, context⟩

/-- Reads embedded code up to the brace that balances the one before it, and passes that brace. The
token ends in front of the closing delimiter. -/
def readCode (reader : ρ) (context : Context) : Outcome ρ :=
  (Nesting.enter .code [] reader context).run

/-- Reads the payload of an attribute up to the square bracket that balances the one before it, and
passes that bracket. The token ends in front of it. -/
def readPayload (reader : ρ) (context : Context) : Outcome ρ :=
  (Nesting.enter .bracket [] reader context).run

theorem rest_readComment_suffix (reader : ρ) (context : Context) :
    rest (readComment reader context).reader <:+ rest reader := by
  rw [readComment]
  split
  · exact (Nesting.rest_run_enter_suffix .comment [] _ context).trans (rest_advance_suffix reader)
  · exact List.suffix_rfl

/-- Passes one unit of a type: a comment, a minus sign or square bracket together with a `>` right
after it, or a single character. -/
def passTypeUnit (reader : ρ) (context : Context) : ρ × Context :=
  let second := advance reader
  if current reader = Ascii.parenOpen then
    let comment := readComment second context
    (comment.reader, comment.context)
  else if (current reader = Ascii.minus ∨ current reader = Ascii.bracketOpen) ∧
      current second = Ascii.greater then
    (advance second, context)
  else (second, context)

/-- A unit of a type passes its first character and, it may be, some of those after it. -/
theorem rest_passTypeUnit_suffix (reader : ρ) (context : Context) :
    rest (passTypeUnit reader context).1 <:+ rest (advance reader) := by
  simp only [passTypeUnit]
  split
  · exact rest_readComment_suffix _ context
  · split
    · exact rest_advance_suffix _
    · exact List.suffix_rfl

theorem length_rest_passTypeUnit_lt {reader : ρ} (context : Context)
    (hend : atEnd reader = false) :
    (rest (passTypeUnit reader context).1).length < (rest reader).length :=
  Nat.lt_of_le_of_lt (rest_passTypeUnit_suffix reader context).length_le
    (length_rest_advance_lt hend)

/-- Reads a type up to the `>` that ends it, which is not passed. The `>` of an arrow or of an open
variant does not end it, nor does one inside of a comment. -/
def readType (reader : ρ) (context : Context) : Outcome ρ :=
  if atEnd reader then ⟨false, reader, context⟩
  else if current reader = Ascii.greater then ⟨true, commit reader, context⟩
  else
    let passed := passTypeUnit reader context
    readType passed.1 passed.2
termination_by (rest reader).length
decreasing_by exact length_rest_passTypeUnit_lt context (by simp_all)

theorem rest_readType_suffix (reader : ρ) (context : Context) :
    rest (readType reader context).reader <:+ rest reader := by
  fun_induction readType reader context with
  | case1 reader context hend => exact List.suffix_rfl
  | case2 reader context hend hgreater => exact rest_commit reader ▸ List.suffix_rfl
  | case3 reader context hend hgreater passed ih =>
    exact ih.trans ((rest_passTypeUnit_suffix reader context).trans (rest_advance_suffix reader))

end GrammarFragments
