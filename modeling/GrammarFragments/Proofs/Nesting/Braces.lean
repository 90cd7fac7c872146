import GrammarFragments.Proofs.Failure
import GrammarFragments.Proofs.Printed.Items

/-!
Braces that open no quoted text. A probe for the opening of a quoted text keeps the tag bytes it has
passed when no bar follows them, and the groups go on behind these bytes. A word after the brace is
then entered in the middle. Nothing comes of it as long as the rest of the word is passed like the
word: capitals start a word of their own, and digits are single characters, so the count of the
depth is the same from the brace on (`run_dropWhile_isTagByte`). An apostrophe is another matter,
because behind the tag bytes, or behind digits after them, it no longer belongs to a word
(`SplitsWord`).

Main statement: `brace_transparent`. In front of a word that is not split, a brace in a code block
opens the very block that is read from the first character after the brace, and a brace in a comment
is a character like any other. `brace_splits_word` shows a block that ends elsewhere.
-/

set_option autoImplicit false
set_option relaxedAutoImplicit false

namespace GrammarFragments

open Reader Source

/-- A word is split by a probe that passes its leading tag bytes: there are some, and the digits
after them, if any, come to an apostrophe. -/
def SplitsWord (chars : List UInt8) : Prop :=
  chars.takeWhile isTagByte ≠ [] ∧
    ((chars.dropWhile isTagByte).dropWhile isDecimalDigit).head? = some Ascii.apostrophe

instance (chars : List UInt8) : Decidable (SplitsWord chars) :=
  inferInstanceAs (Decidable (_ ∧ _))

theorem isWordStart_of_isTagByte {byte : UInt8} (hbyte : isTagByte byte = true) :
    isWordStart byte = true := by
  simp only [isTagByte, isWordStart, Bool.or_eq_true] at hbyte ⊢
  exact hbyte.imp_left .inl

theorem isWordPart_of_isWordStart {byte : UInt8} (hbyte : isWordStart byte = true) :
    isWordPart byte = true := by
  rw [isWordPart, hbyte]
  rfl

theorem isWordPart_of_isDecimalDigit {byte : UInt8} (hbyte : isDecimalDigit byte = true) :
    isWordPart byte = true := by
  rw [isWordPart, hbyte, Bool.or_true]
  rfl

theorem isWordStart_of_isDecimalDigit {byte : UInt8} (hbyte : isDecimalDigit byte = true) :
    isWordStart byte = false := by
  rw [isDecimalDigit, Bool.and_eq_true, decide_eq_true_eq, decide_eq_true_eq,
    UInt8.le_iff_toNat_le, UInt8.le_iff_toNat_le] at hbyte
  refine Bool.eq_false_iff.mpr fun hword ↦ ?_
  simp only [isWordStart, isLower, isUpper, Bool.or_eq_true, Bool.and_eq_true, decide_eq_true_eq,
    beq_iff_eq, UInt8.le_iff_toNat_le, ← UInt8.toNat_inj, UInt8.toNat_ofNat] at hbyte hword
  omega

/-! ### Counting through a word -/

namespace Enclosure

variable (group : Enclosure) (depth : Nat)

/-- Assumes: a character of a word. Where no word is open, it starts a lexeme in every group. -/
theorem run_wordPart {byte : UInt8} (chars : List UInt8) (hpart : isWordPart byte = true) :
    group.counter.run (depth + 1) (byte :: chars) =
      group.counter.run (depth + 1) (passLexeme byte chars) := by
  have hreserved : byte ∉ reported group.reserved := by
    intro hmem
    have hnone : (reported group.reserved).all (fun other ↦ !isWordPart other) = true := by
      cases group with
      | comment => rfl
      | code => rfl
      | bracket => rfl
    have hother := List.all_eq_true.mp hnone byte hmem
    rw [hpart] at hother
    cases hother
  exact group.run_of_passLexeme depth (fun hopens ↦ ne_of_accept hpart rfl hopens.1)
    (fun hcloses ↦ ne_of_accept hpart rfl hcloses.1) hreserved rfl

/-- A word is passed as one unit. -/
theorem run_word {byte : UInt8} (chars : List UInt8) (hword : isWordStart byte = true) :
    group.counter.run (depth + 1) (byte :: chars) =
      group.counter.run (depth + 1) (chars.dropWhile isWordPart) := by
  rw [group.run_wordPart depth chars (isWordPart_of_isWordStart hword), passLexeme,
    if_neg (ne_of_accept hword rfl), if_neg (ne_of_accept hword rfl), if_pos hword]

/-- A digit that does not belong to a word is a unit of its own. -/
theorem run_digit {byte : UInt8} (chars : List UInt8) (hdigit : isDecimalDigit byte = true) :
    group.counter.run (depth + 1) (byte :: chars) = group.counter.run (depth + 1) chars := by
  have hword : ¬ isWordStart byte = true := by
    rw [isWordStart_of_isDecimalDigit hdigit]
    exact Bool.false_ne_true
  rw [group.run_wordPart depth chars (isWordPart_of_isDecimalDigit hdigit), passLexeme,
    if_neg (ne_of_accept hdigit rfl), if_neg (ne_of_accept hdigit rfl), if_neg hword]

/-- Assumes: characters in which no apostrophe follows the leading digits. The count goes on behind
the rest of a word as if the characters were in the middle of it. -/
theorem run_dropWhile_isWordPart {chars : List UInt8}
    (hdigits : (chars.dropWhile isDecimalDigit).head? ≠ some Ascii.apostrophe) :
    group.counter.run (depth + 1) chars =
      group.counter.run (depth + 1) (chars.dropWhile isWordPart) := by
  induction chars with
  | nil => rfl
  | cons byte chars ih =>
    by_cases hword : isWordStart byte = true
    · rw [run_word group depth chars hword,
        List.dropWhile_cons_of_pos (isWordPart_of_isWordStart hword)]
    by_cases hdigit : isDecimalDigit byte = true
    · rw [List.dropWhile_cons_of_pos hdigit] at hdigits
      rw [run_digit group depth chars hdigit,
        List.dropWhile_cons_of_pos (isWordPart_of_isDecimalDigit hdigit)]
      exact ih hdigits
    · rw [List.dropWhile_cons_of_neg hdigit, List.head?_cons] at hdigits
      have hpart : ¬ isWordPart byte = true := by
        rw [isWordPart, Bool.or_eq_true, Bool.or_eq_true, beq_iff_eq]
        rintro ((hstart | hdecimal) | hapostrophe)
        · exact hword hstart
        · exact hdigit hdecimal
        · exact hdigits (congrArg some hapostrophe)
      rw [List.dropWhile_cons_of_neg hpart]

/-- Assumes: characters that start with no word, or with one that is not split. The count is the
same with and without their leading tag bytes. -/
theorem run_dropWhile_isTagByte {chars : List UInt8} (hwhole : ¬ SplitsWord chars) :
    group.counter.run (depth + 1) chars =
      group.counter.run (depth + 1) (chars.dropWhile isTagByte) := by
  cases chars with
  | nil => rfl
  | cons byte chars =>
    by_cases htag : isTagByte byte = true
    · have hdigits : ((chars.dropWhile isTagByte).dropWhile isDecimalDigit).head? ≠
          some Ascii.apostrophe := by
        intro hsplits
        refine hwhole ⟨?_, ?_⟩
        · rw [List.takeWhile_cons_of_pos htag]
          exact List.cons_ne_nil _ _
        · rw [List.dropWhile_cons_of_pos htag]
          exact hsplits
      have hrun : chars.dropWhile isWordPart =
          (chars.dropWhile isTagByte).dropWhile isWordPart := by
        conv_lhs => rw [← List.takeWhile_append_dropWhile (p := isTagByte) (l := chars)]
        refine List.dropWhile_append_of_pos fun other hother ↦ ?_
        exact isWordPart_of_isWordStart (isWordStart_of_isTagByte
          (List.all_eq_true.mp List.all_takeWhile other hother))
      rw [run_word group depth chars (isWordStart_of_isTagByte htag), hrun,
        List.dropWhile_cons_of_pos htag, run_dropWhile_isWordPart group depth hdigits]
    · rw [List.dropWhile_cons_of_neg htag]

end Enclosure

/-! ### Braces -/

namespace Nesting

variable {ρ : Type} [SeekReader ρ]

/-- A run inside of groups tells about the text no more than the characters do: readers with the
same characters still to read come to the same verdict, in whatever contexts. -/
theorem verdict_run_enter_eq {reader other : ρ} (hrest : rest reader = rest other)
    (group : Enclosure) (outer : List Enclosure) (context otherContext : Context) :
    (enter group outer reader context).run.verdict =
      (enter group outer other otherContext).run.verdict := by
  have hlist : ∀ (reader : ρ) context, (enter group outer reader context).run.verdict =
      ((enter group outer (rest reader) .initial).run.matched,
        (enter group outer (rest reader) .initial).run.reader) := by
    intro reader context
    have hruns : OutcomesRelated _ _ (enter group outer reader context).run
        (enter group outer (rest reader) .initial).run :=
      rest_simulation.run_related (rest_simulation.enter_related group outer rfl trivial)
    exact Outcome.verdict_eq_iff.mpr ⟨hruns.matched_eq, hruns.reader_related⟩
  rw [hlist reader context, hlist other otherContext, hrest]

/-- Outcomes with the same verdict have the same consequences for the groups around. -/
theorem verdict_resume_eq {outcome other : Outcome ρ} (hverdict : outcome.verdict = other.verdict)
    (outer : List Enclosure) : (resume outer outcome).verdict = (resume outer other).verdict := by
  obtain ⟨hmatched, hrest⟩ := Outcome.verdict_eq_iff.mp hverdict
  unfold resume
  rw [hmatched]
  split
  · cases outer with
    | nil => exact hverdict
    | cons group outer => exact verdict_run_enter_eq hrest group outer _ _
  · rw [Outcome.verdict, Outcome.verdict, rest_foldl_mark, rest_foldl_mark, hrest]

/-- A comment is followed by its depth counter, whatever is around it. -/
theorem verdict_run_comment {nesting : Nesting ρ} (hgroup : nesting.group = .comment) :
    ∃ inner : Outcome ρ, nesting.run = resume nesting.outer inner ∧
      inner.verdict = commentCounter.run 1 nesting.remaining := by
  let alone : Nesting ρ := { nesting with outer := [] }
  have hcount : alone.run.verdict = commentCounter.run 1 alone.remaining :=
    verdict_run_eq_depthCounter follows_commentTurn hgroup rfl
  exact ⟨alone.run, run_within alone nesting.outer, hcount⟩

end Nesting

variable {ρ : Type} [SeekReader ρ]

/-- Assumes: a code block in front of a brace that opens no quoted text. The brace opens a block,
which starts behind the tag bytes. -/
theorem run_code_braceOpen {nesting : Nesting ρ} (hgroup : nesting.group = .code)
    (hnext : nesting.next? = some Ascii.braceOpen)
    (hopening : ((rest nesting.takeNext).dropWhile isTagByte).head? ≠ some Ascii.bar) :
    let quoted := QuotedText.read nesting.takeNext nesting.context
    nesting.run =
        Nesting.resume (.code :: nesting.outer) (readCode quoted.reader quoted.context) ∧
      (readCode quoted.reader quoted.context).verdict =
        codeCounter.run 1 ((rest nesting.takeNext).dropWhile isTagByte) := by
  intro quoted
  obtain ⟨hfails, hrest⟩ := quotedText_of_no_opening nesting.context hopening
  have hturn := Nesting.turn_code_braceOpen hfails
  rw [← hgroup] at hturn
  refine ⟨?_, ?_⟩
  · rw [Nesting.run_of_step_eq_more (Nesting.step_of_turn_eq_nest hnext hturn), hgroup]
    exact Nesting.run_within (Nesting.enter .code [] quoted.reader quoted.context) _
  · rw [← hrest]
    exact Enclosure.verdict_run_enter .code quoted.reader quoted.context

/-- Assumes: characters that open no quoted text and whose first word is not split. In a comment a
brace in front of them is passed by itself. -/
theorem run_comment_braceOpen {chars : List UInt8}
    (hopening : (chars.dropWhile isTagByte).head? ≠ some Ascii.bar)
    (hwhole : ¬ SplitsWord chars) :
    commentCounter.run 1 (Ascii.braceOpen :: chars) = commentCounter.run 1 chars := by
  have hunit : commentCounter.unit Ascii.braceOpen chars =
      (.level, chars.dropWhile isTagByte) := by
    have hpassed : rest (QuotedText.read chars .initial).reader =
        (rest chars).dropWhile isTagByte := (quotedText_of_no_opening .initial hopening).2
    show commentUnit Ascii.braceOpen chars = _
    rw [commentUnit, if_neg (fun hopens ↦ absurd hopens.1 (by decide)),
      if_neg (fun hcloses ↦ absurd hcloses.1 (by decide)), if_pos rfl]
    exact congrArg (Prod.mk DepthChange.level) hpassed
  rw [DepthCounter.run, hunit]
  exact (Enclosure.run_dropWhile_isTagByte .comment 0 hwhole).symm

/-- Assumes: a brace in front of characters that open no quoted text and whose first word is not
split. In a code block the brace opens a block that has the verdict, and leaves the characters, of
the code that is read from the first character after the brace, and the groups around go on after
it. In a comment the text is read on as if the brace were an ordinary character. -/
theorem brace_transparent (nesting : Nesting ρ) (hnext : nesting.next? = some Ascii.braceOpen)
    (hopening : ((rest nesting.takeNext).dropWhile isTagByte).head? ≠ some Ascii.bar)
    (hwhole : ¬ SplitsWord (rest nesting.takeNext)) :
    (nesting.group = .code →
      let quoted := QuotedText.read nesting.takeNext nesting.context
      let block := readCode quoted.reader quoted.context
      nesting.run = Nesting.resume (.code :: nesting.outer) block ∧
        block.verdict = (readCode nesting.takeNext nesting.context).verdict) ∧
      (nesting.group = .comment →
        nesting.run.verdict =
          { nesting with pending := none, reader := nesting.takeNext }.run.verdict) := by
  refine ⟨?_, ?_⟩
  · intro hgroup quoted block
    obtain ⟨hrun, hblock⟩ := run_code_braceOpen hgroup hnext hopening
    refine ⟨hrun, hblock.trans ?_⟩
    rw [readCode, Enclosure.verdict_run_enter]
    exact (Enclosure.run_dropWhile_isTagByte .code 0 hwhole).symm
  · intro hgroup
    let passed : Nesting ρ := { nesting with pending := none, reader := nesting.takeNext }
    have hpassed : passed.group = .comment := hgroup
    obtain ⟨inner, hrun, hinner⟩ := Nesting.verdict_run_comment hgroup
    obtain ⟨after, hafterRun, hafter⟩ := Nesting.verdict_run_comment hpassed
    rw [hrun, hafterRun]
    refine Nesting.verdict_resume_eq ?_ nesting.outer
    rw [hinner, hafter, Nesting.remaining_eq_cons hnext]
    exact run_comment_braceOpen hopening hwhole

/-- A brace in front of a word with a capital, a digit and an apostrophe, in a code block and in a
comment. -/
theorem brace_transparent_witness :
    let reader := (Source.mk "\x7baB1'\x7d'\x7d *)").reader
    let code := Nesting.enter .code [] reader .initial
    let quoted := QuotedText.read code.takeNext code.context
    let comment := Nesting.enter .comment [.bracket] reader .initial
    code.next? = some Ascii.braceOpen ∧ ¬ SplitsWord (rest code.takeNext) ∧
      (readCode quoted.reader quoted.context).verdict =
        (readCode code.takeNext code.context).verdict ∧
      comment.run.verdict =
        { comment with pending := none, reader := comment.takeNext }.run.verdict := by
  intro reader code quoted comment
  have hnext : code.next? = some Ascii.braceOpen := by decide +kernel
  have hopening : ((rest code.takeNext).dropWhile isTagByte).head? ≠ some Ascii.bar := by
    decide +kernel
  have hwhole : ¬ SplitsWord (rest code.takeNext) := by decide +kernel
  exact ⟨hnext, hwhole, ((brace_transparent code hnext hopening hwhole).1 rfl).2,
    (brace_transparent comment hnext hopening hwhole).2 rfl⟩

/-- A brace that opens no quoted text but is not transparent: from the first character after it the
code ends behind `a'}`, while the block that it opens takes `'}'` for a character literal and ends
behind the next brace. -/
theorem brace_splits_word :
    let nesting := Nesting.enter .code [] (Source.mk "\x7ba'\x7d'\x7d\x7d").reader .initial
    let quoted := QuotedText.read nesting.takeNext nesting.context
    nesting.next? = some Ascii.braceOpen ∧
      ((rest nesting.takeNext).dropWhile isTagByte).head? ≠ some Ascii.bar ∧
      nesting.run = Nesting.resume [.code] (readCode quoted.reader quoted.context) ∧
      (readCode quoted.reader quoted.context).verdict = (true, [0x7D]) ∧
      (readCode nesting.takeNext nesting.context).verdict = (true, [0x27, 0x7D, 0x7D]) := by
  intro nesting quoted
  have hnext : nesting.next? = some Ascii.braceOpen := by decide +kernel
  have hopening : ((rest nesting.takeNext).dropWhile isTagByte).head? ≠ some Ascii.bar := by
    decide +kernel
  obtain ⟨hrun, hblock⟩ := run_code_braceOpen rfl hnext hopening
  refine ⟨hnext, hopening, hrun, hblock.trans ?_, ?_⟩
  · decide +kernel
  · rw [readCode, Enclosure.verdict_run_enter]
    decide +kernel

end GrammarFragments
