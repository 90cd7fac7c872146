import GrammarFragments.Ascii

/-!
A reader is the view that every recognizer has of a text: one current character, reported as a
byte, a way past it, and a way to fix the end of the token under construction. A character outside
ASCII is reported as some byte of at least `0x80`. At the end the current character is zero; a zero
before the end is content, so the end is asked for by `atEnd` alone.

The laws of the class say what each operation does to `rest`, the list of the characters that are
still to be read. The list is not there to be computed: it is what loops over a reader get smaller
on, and what theorems about them speak of. Main statements: the loop `advanceWhile`, and with it
`seekStepwise`, leaves a `dropWhile` of the rest, and `takeWhile` gives a `takeWhile` of it.
-/

set_option autoImplicit false
set_option relaxedAutoImplicit false

namespace GrammarFragments

/-- A text seen one character at a time. -/
class Reader (ρ : Type) where
  /-- The current character, zero at the end. -/
  current : ρ → UInt8
  /-- Every character has been read. -/
  atEnd : ρ → Bool
  /-- Passes the current character, which belongs to the token. -/
  advance : ρ → ρ
  /-- Passes the current character, which lies in front of the token. -/
  skip : ρ → ρ
  /-- Fixes the end of the token at the current character. -/
  commit : ρ → ρ
  /-- The characters that are still to be read. -/
  rest : ρ → List UInt8
  current_eq_headD : ∀ reader, current reader = (rest reader).headD 0
  atEnd_eq_isEmpty : ∀ reader, atEnd reader = (rest reader).isEmpty
  rest_advance : ∀ reader, rest (advance reader) = (rest reader).tail
  rest_skip : ∀ reader, rest (skip reader) = (rest reader).tail
  rest_commit : ∀ reader, rest (commit reader) = rest reader

namespace Reader

attribute [simp] rest_advance rest_skip rest_commit

variable {ρ : Type} [Reader ρ]

theorem rest_eq_nil {reader : ρ} (hend : atEnd reader = true) : rest reader = [] := by
  rw [atEnd_eq_isEmpty] at hend
  simpa using hend

theorem atEnd_of_rest_eq_nil {reader : ρ} (hrest : rest reader = []) : atEnd reader = true := by
  rw [atEnd_eq_isEmpty, hrest, List.isEmpty_nil]

theorem rest_eq_cons {reader : ρ} (hend : atEnd reader = false) :
    rest reader = current reader :: (rest reader).tail := by
  rw [atEnd_eq_isEmpty] at hend
  rw [current_eq_headD]
  cases hrest : rest reader with
  | nil => simp [hrest] at hend
  | cons byte bytes => rfl

theorem current_eq_zero {reader : ρ} (hend : atEnd reader = true) : current reader = 0 := by
  rw [current_eq_headD, rest_eq_nil hend, List.headD_nil]

/-- A nonzero current character is a character of the text. -/
theorem atEnd_eq_false_of_current_ne_zero {reader : ρ} (hcurrent : current reader ≠ 0) :
    atEnd reader = false := by
  cases hend : atEnd reader with
  | false => rfl
  | true => exact absurd (current_eq_zero hend) hcurrent

theorem length_rest_advance_lt {reader : ρ} (hend : atEnd reader = false) :
    (rest (advance reader)).length < (rest reader).length := by
  rw [rest_advance, rest_eq_cons hend]
  simp

theorem length_rest_skip_lt {reader : ρ} (hend : atEnd reader = false) :
    (rest (skip reader)).length < (rest reader).length := by
  rw [rest_skip, rest_eq_cons hend]
  simp

theorem rest_advance_suffix (reader : ρ) : rest (advance reader) <:+ rest reader := by
  rw [rest_advance]
  exact List.tail_suffix _

/-! ### Runs of characters -/

/-- Passes the characters that `accept` takes, up to the first one it refuses. -/
def advanceWhile (accept : UInt8 → Bool) (reader : ρ) : ρ :=
  if atEnd reader then reader
  else if accept (current reader) then advanceWhile accept (advance reader)
  else reader
termination_by (rest reader).length
decreasing_by exact length_rest_advance_lt (by simp_all)

/-- Passes the characters in front of the token that `accept` takes, up to the first one it
refuses. -/
def skipWhile (accept : UInt8 → Bool) (reader : ρ) : ρ :=
  if atEnd reader then reader
  else if accept (current reader) then skipWhile accept (skip reader)
  else reader
termination_by (rest reader).length
decreasing_by exact length_rest_skip_lt (by simp_all)

/-- Where `accept` refuses the character here, nothing is passed. -/
theorem skipWhile_of_refused {accept : UInt8 → Bool} {reader : ρ}
    (hrefused : accept (current reader) = false) : skipWhile accept reader = reader := by
  rw [skipWhile, hrefused, if_neg Bool.false_ne_true, ite_self]

/-- Passes the characters that `accept` takes and adds them to `taken`, the latest first. -/
def collectWhile (accept : UInt8 → Bool) (reader : ρ) (taken : List UInt8) : List UInt8 × ρ :=
  if atEnd reader then (taken, reader)
  else if accept (current reader) then
    collectWhile accept (advance reader) (current reader :: taken)
  else (taken, reader)
termination_by (rest reader).length
decreasing_by exact length_rest_advance_lt (by simp_all)

/-- The characters that `accept` takes, up to the first one it refuses, and the reader there. -/
def takeWhile (accept : UInt8 → Bool) (reader : ρ) : List UInt8 × ρ :=
  let (taken, stopped) := collectWhile accept reader []
  (taken.reverse, stopped)

/-- Passes the content of a string literal, character by character, up to the next double quote or
backslash. -/
def seekStepwise (reader : ρ) : ρ := advanceWhile (fun byte ↦ !isStringStop byte) reader

theorem rest_advanceWhile (accept : UInt8 → Bool) (reader : ρ) :
    rest (advanceWhile accept reader) = (rest reader).dropWhile accept := by
  fun_induction advanceWhile accept reader with
  | case1 reader hend => simp [rest_eq_nil hend]
  | case2 reader hend haccept ih =>
    rw [ih, rest_advance, rest_eq_cons (by simpa using hend), List.dropWhile_cons_of_pos haccept,
      List.tail_cons]
  | case3 reader hend haccept =>
    rw [rest_eq_cons (by simpa using hend), List.dropWhile_cons_of_neg haccept]

theorem collectWhile_eq (accept : UInt8 → Bool) (reader : ρ) (taken : List UInt8) :
    collectWhile accept reader taken =
      (((rest reader).takeWhile accept).reverse ++ taken, advanceWhile accept reader) := by
  fun_induction collectWhile accept reader taken with
  | case1 reader taken hend =>
    rw [advanceWhile]
    simp [rest_eq_nil hend, hend]
  | case2 reader taken hend haccept ih =>
    have htake : (rest reader).takeWhile accept =
        current reader :: (rest reader).tail.takeWhile accept := by
      rw [rest_eq_cons (by simpa using hend), List.takeWhile_cons_of_pos haccept, List.tail_cons]
    rw [ih, rest_advance, advanceWhile.eq_def accept reader, if_neg hend, if_pos haccept, htake]
    simp
  | case3 reader taken hend haccept =>
    rw [advanceWhile, if_neg hend, if_neg haccept, rest_eq_cons (by simpa using hend),
      List.takeWhile_cons_of_neg haccept]
    rfl

theorem takeWhile_eq (accept : UInt8 → Bool) (reader : ρ) :
    takeWhile accept reader = ((rest reader).takeWhile accept, advanceWhile accept reader) := by
  simp [takeWhile, collectWhile_eq]

/-- Assumes: a property that advancing keeps. Passing a run of characters keeps it. -/
theorem advanceWhile_holds {holds : ρ → Prop}
    (hadvance : ∀ reader : ρ, holds reader → holds (advance reader)) (accept : UInt8 → Bool)
    {reader : ρ} (hholds : holds reader) : holds (advanceWhile accept reader) := by
  fun_induction advanceWhile accept reader with
  | case1 reader hend => exact hholds
  | case2 reader hend haccept ih => exact ih (hadvance reader hholds)
  | case3 reader hend haccept => exact hholds

theorem rest_advanceWhile_suffix (accept : UInt8 → Bool) (reader : ρ) :
    rest (advanceWhile accept reader) <:+ rest reader := by
  rw [rest_advanceWhile]
  exact List.dropWhile_suffix _

end Reader

/-- A reader that can look for the next double quote or backslash in bulk. The law asks that this
reaches the place that going there character by character reaches. -/
class SeekReader (ρ : Type) extends Reader ρ where
  /-- Passes the content of a string literal up to the next double quote or backslash. -/
  seek : ρ → ρ
  rest_seek : ∀ reader,
    rest (seek reader) = (rest reader).dropWhile fun byte ↦ !isStringStop byte

/-- A search in bulk leaves the characters that the search character by character leaves. -/
theorem SeekReader.rest_seek_eq {ρ : Type} [SeekReader ρ] (reader : ρ) :
    Reader.rest (seek reader) = Reader.rest (Reader.seekStepwise reader) :=
  (rest_seek reader).trans (Reader.rest_advanceWhile _ reader).symm

end GrammarFragments
