import GrammarFragments.Reader.Basic

/-!
A reader with nothing but the required operations of another one: it has no search of its own and
goes to the next string stop character by character.
-/

set_option autoImplicit false
set_option relaxedAutoImplicit false

namespace GrammarFragments

/-- A reader that never looks ahead in bulk. -/
structure Stepwise (ρ : Type) where
  reader : ρ

namespace Stepwise

variable {ρ : Type} [Reader ρ]

instance : Reader (Stepwise ρ) where
  current stepwise := Reader.current stepwise.reader
  atEnd stepwise := Reader.atEnd stepwise.reader
  advance stepwise := ⟨Reader.advance stepwise.reader⟩
  skip stepwise := ⟨Reader.skip stepwise.reader⟩
  commit stepwise := ⟨Reader.commit stepwise.reader⟩
  rest stepwise := Reader.rest stepwise.reader
  current_eq_headD stepwise := Reader.current_eq_headD stepwise.reader
  atEnd_eq_isEmpty stepwise := Reader.atEnd_eq_isEmpty stepwise.reader
  rest_advance stepwise := Reader.rest_advance stepwise.reader
  rest_skip stepwise := Reader.rest_skip stepwise.reader
  rest_commit stepwise := Reader.rest_commit stepwise.reader

@[simp]
theorem current_mk (reader : ρ) : Reader.current (mk reader) = Reader.current reader := rfl

@[simp]
theorem rest_mk (reader : ρ) : Reader.rest (mk reader) = Reader.rest reader := rfl

instance : SeekReader (Stepwise ρ) where
  seek := Reader.seekStepwise
  rest_seek := Reader.rest_advanceWhile fun byte ↦ !isStringStop byte

end Stepwise

end GrammarFragments
