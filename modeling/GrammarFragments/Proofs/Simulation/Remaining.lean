import GrammarFragments.Proofs.Simulation.Recognizers

/-!
A list of characters is a reader: the plainest one, which has no token and no position. Every reader
simulates the list of the characters it has still to read (`rest_simulation`). So what a recognizer
passes, and whether it matches, is a function of these characters alone, and it does not depend on
the context (`rest_finish`, `rest_probe`, `rest_quotedText`, `rest_readComment`, `rest_readType`): a
rule about the text may name a recognizer applied to a list of characters and means every reader by
it.
-/

set_option autoImplicit false
set_option relaxedAutoImplicit false

namespace GrammarFragments

open Reader

/-- The characters of a list, read from the front. There is no token to start or to end. -/
instance : Reader (List UInt8) where
  current chars := chars.headD 0
  atEnd chars := chars.isEmpty
  advance chars := chars.tail
  skip chars := chars.tail
  commit chars := chars
  rest chars := chars
  current_eq_headD _ := rfl
  atEnd_eq_isEmpty _ := rfl
  rest_advance _ := rfl
  rest_skip _ := rfl
  rest_commit _ := rfl

instance : SeekReader (List UInt8) where
  seek chars := chars.dropWhile fun byte ↦ !isStringStop byte
  rest_seek _ := rfl

@[simp]
theorem current_cons (byte : UInt8) (chars : List UInt8) : current (byte :: chars) = byte := rfl

@[simp]
theorem atEnd_cons (byte : UInt8) (chars : List UInt8) : atEnd (byte :: chars) = false := rfl

@[simp]
theorem advance_cons (byte : UInt8) (chars : List UInt8) : advance (byte :: chars) = chars := rfl

/-! ### String literals in a list -/

namespace StringLiteral

/-- What is passed depends on the next string stop alone. -/
theorem finish_of_seek_eq {chars others : List UInt8}
    (hseek : SeekReader.seek chars = SeekReader.seek others) : finish chars = finish others := by
  rw [finish, finish.eq_def others, hseek]

theorem finish_plain {byte : UInt8} (chars : List UInt8) (hbyte : isStringStop byte = false) :
    finish (byte :: chars) = finish chars := by
  refine finish_of_seek_eq (List.dropWhile_cons_of_pos ?_)
  rw [hbyte, Bool.not_false]

theorem finish_escaped (byte : UInt8) (chars : List UInt8) :
    finish (Ascii.backslash :: byte :: chars) = finish chars := by
  rw [finish]
  rfl

theorem finish_quote (chars : List UInt8) : finish (Ascii.doubleQuote :: chars) = chars := by
  rw [finish]
  rfl

/-- Content without a string stop is passed, and the double quote behind it ends the literal. -/
theorem finish_append_quote {content : List UInt8}
    (hcontent : ∀ byte ∈ content, isStringStop byte = false) (chars : List UInt8) :
    finish (content ++ Ascii.doubleQuote :: chars) = chars := by
  induction content with
  | nil => exact finish_quote chars
  | cons byte content ih =>
    obtain ⟨hbyte, hothers⟩ := List.forall_mem_cons.mp hcontent
    exact (finish_plain _ hbyte).trans (ih hothers)

end StringLiteral

/-! ### Every reader -/

section Rest

variable {ρ : Type} [SeekReader ρ]

/-- A reader and the list of the characters it has still to read are not told apart, whatever the
contexts. -/
theorem rest_simulation :
    Simulation (fun (reader : ρ) (chars : List UInt8) ↦ rest reader = chars) (fun _ _ ↦ True) where
  current_alike := by
    rintro reader chars rfl -
    rw [current_eq_headD]
    exact Alike.refl _
  atEnd_eq := by
    rintro reader chars rfl -
    exact atEnd_eq_isEmpty reader
  advance_related := by
    rintro reader chars rfl
    exact rest_advance reader
  seek_related := by
    rintro reader chars rfl -
    exact SeekReader.rest_seek reader
  commit_related := by
    rintro reader chars rfl
    exact rest_commit reader
  clearTag_akin _ := trivial

theorem rest_finish (reader : ρ) :
    rest (StringLiteral.finish reader) = StringLiteral.finish (rest reader) :=
  rest_simulation.finish_related rfl

theorem rest_probe (reader : ρ) :
    rest (CharLiteral.probe reader).2 = (CharLiteral.probe (rest reader)).2 :=
  (rest_simulation.probe_related rfl).2

/-- Whether a quoted text is complete, and what it passes, is told by the characters alone. -/
theorem rest_quotedText (reader : ρ) (context otherContext : Context) :
    (QuotedText.read reader context).matched =
        (QuotedText.read (rest reader) otherContext).matched ∧
      rest (QuotedText.read reader context).reader =
        (QuotedText.read (rest reader) otherContext).reader :=
  rest_simulation.read_related rfl context otherContext

theorem rest_readComment (reader : ρ) (context otherContext : Context) :
    rest (readComment reader context).reader =
      (readComment (rest reader) otherContext).reader :=
  (rest_simulation.readComment_related rfl trivial).reader_related

/-- Whether a type is found, and where it ends, is told by the characters alone. -/
theorem rest_readType (reader : ρ) (context otherContext : Context) :
    (readType reader context).matched = (readType (rest reader) otherContext).matched ∧
      rest (readType reader context).reader = (readType (rest reader) otherContext).reader := by
  have hrelated : OutcomesRelated (fun (reader : ρ) (chars : List UInt8) ↦ rest reader = chars)
      (fun _ _ ↦ True) (readType reader context) (readType (rest reader) otherContext) :=
    rest_simulation.readType_related rfl trivial
  exact ⟨hrelated.matched_eq, hrelated.reader_related⟩

end Rest

end GrammarFragments
