import Mathlib.Tactic.SplitIfs
import GrammarFragments.Proofs.Printed.Items

/-!
The characters with which constructs end. A string literal, a quoted text, a character literal and a
comment that are found complete have just passed their closer; a word, a tag and the digits of an
escape have passed characters of their own class. None of these is a percent sign. So a unit of
embedded code leaves the text behind a percent sign only if it is that percent sign
(`codeUnit_stopsClear`), or if nothing is left.

Main statement: where a count of embedded code accepts behind `%}`, the percent sign is a unit at
depth one (`mem_places_of_percent`).
-/

set_option autoImplicit false
set_option relaxedAutoImplicit false

namespace GrammarFragments

open Reader

/-! ### Closers -/

section Closers

variable {ρ : Type} [Reader ρ]

/-- A character other than zero that is passed has come before what is left. -/
theorem Reader.cons_rest_advance {reader : ρ} {byte : UInt8} (hcurrent : current reader = byte)
    (hbyte : byte ≠ 0) : byte :: rest (advance reader) = rest reader := by
  subst hcurrent
  rw [rest_advance]
  exact (rest_eq_cons (atEnd_eq_false_of_current_ne_zero hbyte)).symm

/-- A closer that matches ends with a brace. -/
theorem QuotedText.braceClose_matchCloser {tag : List UInt8} {reader : ρ}
    (hmatched : (matchCloser tag reader).1 = true) :
    Ascii.braceClose :: rest (matchCloser tag reader).2 <:+ rest reader := by
  induction tag generalizing reader with
  | nil =>
    rw [matchCloser] at hmatched ⊢
    split_ifs at hmatched ⊢ with hbrace
    exact ⟨[], cons_rest_advance hbrace (by decide)⟩
  | cons expected tag ih =>
    rw [matchCloser] at hmatched ⊢
    split_ifs at hmatched ⊢ with hexpected
    exact (ih hmatched).trans (rest_advance_suffix reader)

theorem QuotedText.braceClose_findCloser {tag : List UInt8} {reader : ρ}
    (hmatched : (findCloser tag reader).1 = true) :
    Ascii.braceClose :: rest (findCloser tag reader).2 <:+ rest reader := by
  fun_induction findCloser tag reader with
  | case1 reader hend => cases hmatched
  | case2 reader hend hbar candidate hclosed =>
    exact (braceClose_matchCloser hclosed).trans (rest_advance_suffix reader)
  | case3 reader hend hbar candidate hclosed ih =>
    exact (ih hmatched).trans
      ((rest_matchCloser_suffix tag _).trans (rest_advance_suffix reader))
  | case4 reader hend hbar ih => exact (ih hmatched).trans (rest_advance_suffix reader)

/-- A complete quoted text ends with a brace. -/
theorem QuotedText.braceClose_read {reader : ρ} {context : Context}
    (hmatched : (read reader context).matched = true) :
    Ascii.braceClose :: rest (read reader context).reader <:+ rest reader := by
  by_cases hopened : (readOpening reader context).matched = true
  · simp only [read, if_pos hopened] at hmatched ⊢
    exact (braceClose_findCloser hmatched).trans (rest_readOpening_suffix reader context)
  · simp only [read, if_neg hopened] at hmatched
    exact absurd hmatched hopened

end Closers

/-- A string literal ends with a double quote, or with the text. -/
theorem StringLiteral.doubleQuote_finish {ρ : Type} [SeekReader ρ] (reader : ρ) :
    rest (finish reader) = [] ∨ Ascii.doubleQuote :: rest (finish reader) <:+ rest reader := by
  fun_induction finish reader with
  | case1 reader stop hend => exact .inl (rest_eq_nil hend)
  | case2 reader stop hend hescape ih =>
    have hpassed : rest (advance (advance stop)) <:+ rest reader :=
      (rest_advance_suffix _).trans ((rest_advance_suffix stop).trans (rest_seek_suffix reader))
    exact ih.imp_right fun hquote ↦ hquote.trans hpassed
  | case3 reader stop hend hescape hquote =>
    refine .inr ?_
    rw [cons_rest_advance hquote (by decide)]
    exact rest_seek_suffix reader
  | case4 reader stop hend hescape hquote =>
    have hstop : isStringStop (current stop) = true :=
      isStringStop_current_seek (by simpa using hend)
    simp only [isStringStop, Bool.or_eq_true, beq_iff_eq] at hstop
    exact absurd hstop (not_or.mpr ⟨hquote, hescape⟩)

/-! ### Stopping clear of a percent sign -/

/-- What is left is the end of the characters, and the last character that was passed, if any, is no
percent sign. Nothing is asked if nothing is left. -/
def StopsClear (chars left : List UInt8) : Prop :=
  left <:+ chars ∧ (left ≠ [] → ¬ Ascii.percent :: left <:+ chars)

namespace StopsClear

variable {chars left : List UInt8}

theorem refl (chars : List UInt8) : StopsClear chars chars := by
  refine ⟨List.suffix_rfl, fun _ hpercent ↦ ?_⟩
  have hlength := hpercent.length_le
  rw [List.length_cons] at hlength
  omega

theorem nil (chars : List UInt8) : StopsClear chars [] :=
  ⟨List.nil_suffix, fun hne ↦ absurd rfl hne⟩

theorem of_closer {closer : UInt8} (hpassed : closer :: left <:+ chars)
    (hcloser : closer ≠ Ascii.percent) : StopsClear chars left := by
  refine ⟨(List.suffix_cons closer left).trans hpassed, fun _ hpercent ↦ ?_⟩
  have hsame : closer :: left = Ascii.percent :: left :=
    (List.suffix_of_suffix_length_le hpassed hpercent (Nat.le_refl _)).eq_of_length rfl
  exact hcloser (List.head_eq_of_cons_eq hsame)

theorem trans {middle : List UInt8} (hfirst : StopsClear chars middle)
    (hsecond : StopsClear middle left) : StopsClear chars left := by
  refine ⟨hsecond.1.trans hfirst.1, fun hne hpercent ↦ ?_⟩
  rcases Nat.lt_or_ge left.length middle.length with hlonger | hshorter
  · exact hsecond.2 hne (List.suffix_of_suffix_length_le hpercent hfirst.1 hlonger)
  · obtain rfl : left = middle := hsecond.1.eq_of_length_le hshorter
    exact hfirst.2 hne hpercent

theorem advance_of_ne (hcurrent : current chars ≠ Ascii.percent) :
    StopsClear chars (advance chars) := by
  cases chars with
  | nil => exact refl []
  | cons byte chars => exact of_closer List.suffix_rfl hcurrent

theorem dropWhile {accept : UInt8 → Bool} (haccept : accept Ascii.percent = false)
    (chars : List UInt8) : StopsClear chars (chars.dropWhile accept) := by
  induction chars with
  | nil => exact refl []
  | cons byte chars ih =>
    by_cases hbyte : accept byte = true
    · rw [List.dropWhile_cons_of_pos hbyte]
      exact (of_closer List.suffix_rfl (ne_of_accept hbyte haccept)).trans ih
    · rw [List.dropWhile_cons_of_neg hbyte]
      exact refl _

end StopsClear

/-! ### Character literals -/

namespace CharLiteral

theorem readDigits_stopsClear {accept : UInt8 → Bool} (haccept : accept Ascii.percent = false)
    (base count value : Nat) (chars : List UInt8) :
    StopsClear chars (readDigits accept base count value chars).2 := by
  induction count generalizing value chars with
  | zero => exact .refl chars
  | succ count ih =>
    rw [readDigits]
    split_ifs with hdigit
    · exact (StopsClear.advance_of_ne (ne_of_accept hdigit haccept)).trans (ih _ _)
    · exact .refl chars

theorem readEscape_stopsClear (chars : List UInt8) :
    StopsClear chars (readEscape chars).2 := by
  simp only [readEscape]
  split_ifs with hdecimal hhex hoctal
  · exact readDigits_stopsClear rfl 8 3 0 chars
  · exact (StopsClear.advance_of_ne (by rw [hhex]; decide)).trans
      (readDigits_stopsClear rfl 16 2 0 _)
  · exact (StopsClear.advance_of_ne (by rw [hoctal]; decide)).trans
      (readDigits_stopsClear rfl 8 3 0 _)
  · cases hescape : simpleEscape? (current chars) with
    | none => exact .refl chars
    | some value =>
      refine StopsClear.advance_of_ne fun hpercent ↦ ?_
      rw [hpercent] at hescape
      cases hescape

/-- The body of a literal stops clear of a percent sign, unless it is a plain character. -/
theorem readBody_stopsClear (chars : List UInt8) :
    (∃ byte, (readBody chars).1 = .plain byte) ∨ StopsClear chars (readBody chars).2 := by
  rw [readBody]
  split_ifs with hend hescape hquote
  · exact .inr (.refl chars)
  · exact .inr ((StopsClear.advance_of_ne (by rw [hescape]; decide)).trans
      (readEscape_stopsClear _))
  · exact .inr (.refl chars)
  · exact .inl ⟨_, rfl⟩

/-- Assumes: characters with which a literal may start. The probe stops clear of a percent sign. -/
theorem probe_stopsClear {chars : List UInt8} (hstarts : startsNoLiteral chars = false) :
    StopsClear chars (probe chars).2 := by
  have hpending : (probe chars).1.pending = none := pending_probe_eq_none hstarts
  simp only [probe] at hpending ⊢
  split_ifs at hpending ⊢ with hmalformed hclosed
  · rcases readBody_stopsClear chars with ⟨byte, hplain⟩ | hclear
    · rw [hplain] at hmalformed
      cases hmalformed
    · exact hclear
  · refine StopsClear.of_closer ?_ (show Ascii.apostrophe ≠ Ascii.percent by decide)
    have hpassed : Ascii.apostrophe :: advance (readBody chars).2 = (readBody chars).2 :=
      cons_rest_advance hclosed (by decide)
    rw [hpassed]
    exact rest_readBody_suffix chars
  · rcases readBody_stopsClear chars with ⟨byte, hplain⟩ | hclear
    · rw [hplain] at hpending
      cases hpending
    · exact hclear

end CharLiteral

theorem passLexeme_stopsClear (byte : UInt8) (chars : List UInt8) :
    StopsClear chars (passLexeme byte chars) := by
  rw [passLexeme]
  split_ifs with hstring hquote hstarts hword
  · rcases StringLiteral.doubleQuote_finish chars with hnil | hclosed
    · have hleft : StringLiteral.finish chars = [] := hnil
      rw [hleft]
      exact .nil chars
    · exact .of_closer hclosed (by decide)
  · exact .refl chars
  · exact CharLiteral.probe_stopsClear (by simpa using hstarts)
  · exact .dropWhile rfl chars
  · exact .refl chars

/-! ### Counts that accept -/

theorem DepthChange.eq_shallower_of_apply_eq_zero {change : DepthChange} {depth : Nat}
    (hzero : change.apply (depth + 1) = 0) : change = .shallower := by
  cases change with
  | deeper => cases hzero
  | level => cases hzero
  | shallower => rfl

theorem DepthChange.apply_succ_succ (change : DepthChange) (depth : Nat) :
    change.apply (depth + 2) = change.apply (depth + 1) + 1 := by
  cases change with
  | deeper => rfl
  | level => rfl
  | shallower => rfl

namespace DepthCounter

variable {counter : DepthCounter} {depth : Nat} {chars left : List UInt8}

theorem run_suffix (counter : DepthCounter) (depth : Nat) (chars : List UInt8) :
    (counter.run depth chars).2 <:+ chars := by
  fun_induction DepthCounter.run counter depth chars with
  | case1 chars => exact List.suffix_rfl
  | case2 depth => exact List.suffix_rfl
  | case3 depth byte chars ih =>
    exact (ih.trans (counter.unit_suffix byte chars)).trans (List.suffix_cons byte chars)

/-- A count that accepts ends with a unit that makes the depth shallower. -/
theorem exists_shallower_of_run (hdepth : depth ≠ 0)
    (hrun : counter.run depth chars = (true, left)) :
    ∃ byte others, byte :: others <:+ chars ∧ counter.unit byte others = (.shallower, left) := by
  fun_induction DepthCounter.run counter depth chars with
  | case1 chars => exact absurd rfl hdepth
  | case2 depth => cases hrun
  | case3 depth byte chars ih =>
    by_cases hlast : (counter.unit byte chars).1.apply (depth + 1) = 0
    · rw [hlast, DepthCounter.run, Prod.mk.injEq] at hrun
      exact ⟨byte, chars, List.suffix_rfl,
        Prod.ext (DepthChange.eq_shallower_of_apply_eq_zero hlast) hrun.2⟩
    · obtain ⟨last, others, hsuffix, hunit⟩ := ih hlast hrun
      exact ⟨last, others, (hsuffix.trans (counter.unit_suffix byte chars)).trans
        (List.suffix_cons byte chars), hunit⟩

/-- Only a count from depth zero accepts without passing anything. -/
theorem depth_eq_zero_of_run (hrun : counter.run depth chars = (true, chars)) : depth = 0 := by
  by_contra hdepth
  obtain ⟨byte, others, hsuffix, hunit⟩ := exists_shallower_of_run hdepth hrun
  have hleft : chars <:+ others := by
    have hpassed := counter.unit_suffix byte others
    rw [hunit] at hpassed
    exact hpassed
  exact absurd (hsuffix.trans hleft).length_le (Nat.not_succ_le_self _)

/-- The places at which the units of a count start: the depth there, and the characters from there
on. -/
def places (counter : DepthCounter) : Nat → List UInt8 → List (Nat × List UInt8)
  | 0, _ => []
  | _ + 1, [] => []
  | depth + 1, byte :: chars =>
    (depth + 1, byte :: chars) ::
      counter.places ((counter.unit byte chars).1.apply (depth + 1)) (counter.unit byte chars).2
termination_by _ chars => chars.length
decreasing_by exact Nat.lt_succ_of_le (counter.unit_suffix byte chars).length_le

/-- The places at depth one of a count that starts deeper come after the part of the count in which
that depth is reached. -/
theorem mem_places_succ {others : List UInt8} :
    (1, others) ∈ counter.places (depth + 1) chars ↔
      (counter.run depth chars).1 = true ∧
        (1, others) ∈ counter.places 1 (counter.run depth chars).2 := by
  fun_induction DepthCounter.run counter depth chars with
  | case1 chars => exact (and_iff_right rfl).symm
  | case2 depth => simp [places]
  | case3 depth byte chars ih =>
    have hhead : (1, others) ≠ (depth + 1 + 1, byte :: chars) := by
      intro hsame
      cases hsame
    rw [places, List.mem_cons, or_iff_right hhead, DepthChange.apply_succ_succ, ih]

end DepthCounter

/-! ### Units of embedded code -/

/-- A unit that closes a comment ends with a parenthesis. -/
theorem eq_cons_of_commentUnit {byte : UInt8} {chars left : List UInt8}
    (hunit : commentUnit byte chars = (.shallower, left)) : chars = Ascii.parenClose :: left := by
  rw [commentUnit] at hunit
  split_ifs at hunit with hopens hcloses hbrace
  · cases hunit
  · obtain ⟨others, rfl⟩ := List.head?_eq_some_iff.mp hcloses.2
    cases hunit
    rfl
  · cases hunit
  · cases hunit

/-- A unit that closes a block is a brace by itself. -/
theorem eq_of_codeUnit {byte : UInt8} {chars : List UInt8}
    (hunit : (codeUnit byte chars).1 = .shallower) : (codeUnit byte chars).2 = chars := by
  simp only [codeUnit] at hunit ⊢
  split_ifs at hunit ⊢ with hopens hbrace hbar hcloses
  rfl

theorem readComment_stopsClear {chars : List UInt8} (hstar : chars.head? = some Ascii.star) :
    StopsClear chars (readComment chars .initial).reader := by
  have hcurrent : current chars = Ascii.star := (current_eq_iff_head? (by decide)).mpr hstar
  have hverdict : (readComment chars .initial).verdict = commentCounter.run 1 (advance chars) := by
    rw [readComment, if_pos hcurrent]
    exact Enclosure.verdict_run_enter .comment (advance chars) .initial
  rcases commentCounter.run_accepts_or_ends 1 (advance chars) with haccepts | hends
  · have hrun : commentCounter.run 1 (advance chars) =
        (true, (readComment chars .initial).reader) :=
      Prod.ext haccepts (congrArg Prod.snd hverdict).symm
    obtain ⟨byte, others, hsuffix, hunit⟩ :=
      DepthCounter.exists_shallower_of_run Nat.one_ne_zero hrun
    have hclosed : others = Ascii.parenClose :: (readComment chars .initial).reader :=
      eq_cons_of_commentUnit hunit
    rw [hclosed] at hsuffix
    exact .of_closer (((List.suffix_cons byte _).trans hsuffix).trans (List.tail_suffix chars))
      (by decide)
  · have hnil : (readComment chars .initial).reader = [] :=
      (congrArg Prod.snd hverdict).trans hends
    rw [hnil]
    exact .nil chars

/-- A unit of embedded code stops clear of a percent sign among the characters after its first. -/
theorem codeUnit_stopsClear (byte : UInt8) (chars : List UInt8) :
    StopsClear chars (codeUnit byte chars).2 := by
  simp only [codeUnit]
  split_ifs with hopens hbrace hbar hcloses
  · exact readComment_stopsClear hopens.2
  · cases hmatched : (QuotedText.read chars .initial).matched with
    | true => exact .of_closer (QuotedText.braceClose_read hmatched) (by decide)
    | false =>
      have hnil : (QuotedText.read chars .initial).reader = [] :=
        rest_quotedText_eq_nil hbar hmatched
      rw [hnil]
      exact .nil chars
  · exact .dropWhile rfl chars
  · exact .refl chars
  · exact passLexeme_stopsClear byte chars

/-- Assumes: a unit of embedded code in front of a percent sign and a brace, behind which the count
accepts. The unit leaves the percent sign to the units after it. -/
theorem percent_suffix_codeUnit {byte : UInt8} {chars left : List UInt8} {depth : Nat}
    (hrun : codeCounter.run ((codeUnit byte chars).1.apply (depth + 1)) (codeUnit byte chars).2 =
      (true, left))
    (hinside : Ascii.percent :: Ascii.braceClose :: left <:+ chars) :
    Ascii.percent :: Ascii.braceClose :: left <:+ (codeUnit byte chars).2 := by
  have hclear := codeUnit_stopsClear byte chars
  have hleft : left <:+ (codeUnit byte chars).2 := by
    have hpassed := codeCounter.run_suffix ((codeUnit byte chars).1.apply (depth + 1))
      (codeUnit byte chars).2
    rw [hrun] at hpassed
    exact hpassed
  have hbrace : Ascii.braceClose :: left <:+ chars := (List.suffix_cons _ _).trans hinside
  rcases Nat.lt_trichotomy (codeUnit byte chars).2.length (left.length + 1) with
    hbehind | hbetween | hbefore
  · -- Only the brace that closes the outermost block ends where the count does.
    have hends : left = (codeUnit byte chars).2 :=
      hleft.eq_of_length_le (Nat.le_of_lt_succ hbehind)
    rw [← hends] at hrun
    have hcloses := DepthChange.eq_shallower_of_apply_eq_zero
      (DepthCounter.depth_eq_zero_of_run hrun)
    obtain rfl : left = chars := hends.trans (eq_of_codeUnit hcloses)
    exact absurd hbrace.length_le (Nat.not_succ_le_self _)
  · -- No unit ends between the percent sign and the brace.
    have hends : (codeUnit byte chars).2 = Ascii.braceClose :: left :=
      (List.suffix_of_suffix_length_le hclear.1 hbrace hbetween.le).eq_of_length hbetween
    rw [hends] at hclear
    exact absurd hinside (hclear.2 (List.cons_ne_nil _ _))
  · exact List.suffix_of_suffix_length_le hinside hclear.1 hbefore

/-- Assumes: a count of embedded code that accepts behind a percent sign and a brace, which are
among the characters counted. The percent sign is a unit at depth one. -/
theorem mem_places_of_percent {depth : Nat} {chars left : List UInt8}
    (hrun : codeCounter.run depth chars = (true, left))
    (hsuffix : Ascii.percent :: Ascii.braceClose :: left <:+ chars) :
    (1, Ascii.percent :: Ascii.braceClose :: left) ∈ codeCounter.places depth chars := by
  fun_induction DepthCounter.run codeCounter depth chars with
  | case1 chars =>
    cases hrun
    exact absurd ((List.suffix_cons _ _).trans hsuffix).length_le (Nat.not_succ_le_self _)
  | case2 depth => cases hrun
  | case3 depth byte chars ih =>
    rw [DepthCounter.places, List.mem_cons]
    rcases List.suffix_cons_iff.mp hsuffix with hwhole | hinside
    · cases hwhole
      have hlast : codeCounter.run depth left = (true, left) := by
        change codeCounter.run (depth + 1) (Ascii.braceClose :: left) = (true, left) at hrun
        rw [DepthCounter.run] at hrun
        exact hrun
      obtain rfl := DepthCounter.depth_eq_zero_of_run hlast
      exact .inl rfl
    · exact .inr (ih hrun (percent_suffix_codeUnit hrun hinside))

end GrammarFragments
