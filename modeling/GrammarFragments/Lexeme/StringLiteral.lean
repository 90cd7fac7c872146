import GrammarFragments.Reader.Basic

/-!
String literals inside embedded text. A backslash and the character after it are passed together,
and neither is interpreted. A literal without a closing quote reaches to the end of the text.
-/

set_option autoImplicit false
set_option relaxedAutoImplicit false

namespace GrammarFragments

namespace StringLiteral

open Reader SeekReader

variable {ρ : Type} [SeekReader ρ]

theorem rest_seek_suffix (reader : ρ) : rest (seek reader) <:+ rest reader := by
  rw [rest_seek]
  exact List.dropWhile_suffix _

/-- The search ends at a double quote or a backslash, if not with the text. -/
theorem isStringStop_current_seek {reader : ρ} (hend : atEnd (seek reader) = false) :
    isStringStop (current (seek reader)) = true := by
  have hhead := List.head?_dropWhile_not (fun byte ↦ !isStringStop byte) (rest reader)
  rw [← rest_seek, rest_eq_cons hend] at hhead
  simpa using hhead

/-- Passes the rest of a string literal whose opening quote has been passed, its closing quote
included. -/
def finish (reader : ρ) : ρ :=
  let stop := seek reader
  if atEnd stop then stop
  else if current stop = Ascii.backslash then finish (advance (advance stop))
  else if current stop = Ascii.doubleQuote then advance stop
  else stop
termination_by (rest reader).length
decreasing_by
  rename_i hend _
  have hseek := (rest_seek_suffix reader).length_le
  have hfirst : (rest (advance (seek reader))).length < (rest (seek reader)).length :=
    length_rest_advance_lt (by simpa using hend)
  have hsecond := (rest_advance_suffix (advance (seek reader))).length_le
  omega

theorem rest_finish_suffix (reader : ρ) : rest (finish reader) <:+ rest reader := by
  fun_induction finish reader with
  | case1 reader stop hend => exact rest_seek_suffix reader
  | case2 reader stop hend hescape ih =>
    exact ih.trans ((rest_advance_suffix _).trans
      ((rest_advance_suffix _).trans (rest_seek_suffix reader)))
  | case3 reader stop hend hescape hquote =>
    exact (rest_advance_suffix _).trans (rest_seek_suffix reader)
  | case4 reader stop hend hescape hquote => exact rest_seek_suffix reader

end StringLiteral

end GrammarFragments
