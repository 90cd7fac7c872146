import GrammarFragments.Context.Basic
import GrammarFragments.Reader.Basic

/-!
Quoted texts with a tag of their own, as in `{tag|body|tag}`. The body ends at the first closer
with exactly the tag of the opening. The opening and the closing are recognized apart, with the tag
in the context between them, and the tag is forgotten as soon as the text is closed or given up.

A candidate for the closer is given up at its first character that differs, and that character is
looked at afresh, so that a closer which starts inside of a failed candidate is found.
-/

set_option autoImplicit false
set_option relaxedAutoImplicit false

namespace GrammarFragments

namespace QuotedText

open Reader

variable {ρ : Type} [Reader ρ]

/-- Reads the tag and the bar of an opening whose brace has been passed, and remembers the tag. If
no bar follows the tag, only the tag is passed and nothing is remembered. -/
def readOpening (reader : ρ) (context : Context) : Outcome ρ :=
  let (tag, stopped) := takeWhile isTagByte reader
  if current stopped = Ascii.bar then ⟨true, advance stopped, { context with tag := tag }⟩
  else ⟨false, stopped, context.clearTag⟩

/-- Passes `tag` and a closing brace if they follow, and otherwise stops in front of the first
character that differs. -/
def matchCloser : List UInt8 → ρ → Bool × ρ
  | [], reader =>
    if current reader = Ascii.braceClose then (true, advance reader) else (false, reader)
  | expected :: tag, reader =>
    if current reader = expected then matchCloser tag (advance reader) else (false, reader)

theorem rest_matchCloser_suffix (tag : List UInt8) (reader : ρ) :
    rest (matchCloser tag reader).2 <:+ rest reader := by
  induction tag generalizing reader with
  | nil =>
    rw [matchCloser]
    split
    · exact rest_advance_suffix reader
    · exact List.suffix_rfl
  | cons expected tag ih =>
    rw [matchCloser]
    split
    · exact (ih _).trans (rest_advance_suffix reader)
    · exact List.suffix_rfl

/-- Passes a body and the closer with the given tag, or everything if there is no such closer. -/
def findCloser (tag : List UInt8) (reader : ρ) : Bool × ρ :=
  if atEnd reader then (false, reader)
  else if current reader = Ascii.bar then
    let candidate := matchCloser tag (advance reader)
    if candidate.1 then candidate else findCloser tag candidate.2
  else findCloser tag (advance reader)
termination_by (rest reader).length
decreasing_by
  · rename_i hend _ _
    exact Nat.lt_of_le_of_lt (rest_matchCloser_suffix tag _).length_le
      (length_rest_advance_lt (by simpa using hend))
  · rename_i hend _
    exact length_rest_advance_lt (by simpa using hend)

/-- Reads a body and the closer with the remembered tag, and forgets the tag. -/
def readClosing (reader : ρ) (context : Context) : Outcome ρ :=
  let (closed, stopped) := findCloser context.tag reader
  ⟨closed, stopped, context.clearTag⟩

/-- Reads a whole quoted text whose brace has been passed. If there is no opening, no more than a
tag is passed. -/
def read (reader : ρ) (context : Context) : Outcome ρ :=
  let opened := readOpening reader context
  if opened.matched then readClosing opened.reader opened.context else opened

/-! ### What is passed -/

theorem rest_readOpening_suffix (reader : ρ) (context : Context) :
    rest (readOpening reader context).reader <:+ rest reader := by
  simp only [readOpening, takeWhile_eq]
  split
  · exact (rest_advance_suffix _).trans (rest_advanceWhile_suffix _ reader)
  · exact rest_advanceWhile_suffix _ reader

theorem rest_findCloser_suffix (tag : List UInt8) (reader : ρ) :
    rest (findCloser tag reader).2 <:+ rest reader := by
  fun_induction findCloser tag reader with
  | case1 reader hend => exact List.suffix_rfl
  | case2 reader hend hbar candidate hclosed =>
    exact (rest_matchCloser_suffix tag _).trans (rest_advance_suffix reader)
  | case3 reader hend hbar candidate hclosed ih =>
    exact ih.trans ((rest_matchCloser_suffix tag _).trans (rest_advance_suffix reader))
  | case4 reader hend hbar ih => exact ih.trans (rest_advance_suffix reader)

theorem rest_read_suffix (reader : ρ) (context : Context) :
    rest (read reader context).reader <:+ rest reader := by
  simp only [read]
  split
  · exact (rest_findCloser_suffix _ _).trans (rest_readOpening_suffix reader context)
  · exact rest_readOpening_suffix reader context

end QuotedText

end GrammarFragments
