import GrammarFragments.Proofs.Nesting.Frames
import GrammarFragments.Proofs.Simulation.Remaining

/-!
Nesting by counting. A depth counter goes through a list of characters unit by unit with nothing but
a number in hand: how many groups are open. A unit opens a group, closes one or leaves the depth
alone; depth zero accepts, and the end of the text rejects. There is no stack, no context and no
character that is handed back: an apostrophe looks two characters ahead instead.

Main statements: comments (`readComment_eq_depthCounter`), embedded code and attribute payloads
(`readCode_readPayload_eq_depthCounter`) are found complete by the recognizers exactly when the
depth counter of their kind accepts, with the same characters left over. A step of the machine is a
unit of the counter (`follows_commentTurn`, `follows_codeTurn`, `follows_bracketTurn`), where the
characters that the counter has left are those of `Nesting.remaining`: a character handed back comes
first. A comment inside of code is one unit, because the groups around it take no part in its run.
-/

set_option autoImplicit false
set_option relaxedAutoImplicit false

namespace GrammarFragments

open Reader

/-! ### Depth counters -/

/-- What a unit does to the depth. -/
inductive DepthChange
  | deeper
  | level
  | shallower
  deriving DecidableEq, Repr

/-- The depth after a change. -/
def DepthChange.apply : DepthChange → Nat → Nat
  | deeper, depth => depth + 1
  | level, depth => depth
  | shallower, depth => depth - 1

/-- The rule of a depth counter: what a character starts, by the characters after it. It gives the
change of the depth and the characters after the unit. -/
structure DepthCounter where
  unit : UInt8 → List UInt8 → DepthChange × List UInt8
  unit_suffix : ∀ byte chars, (unit byte chars).2 <:+ chars

/-- Counts from a depth until it is zero or the text ends. The result says whether depth zero was
reached, and what is left of the text. -/
def DepthCounter.run (counter : DepthCounter) : Nat → List UInt8 → Bool × List UInt8
  | 0, chars => (true, chars)
  | _ + 1, [] => (false, [])
  | depth + 1, byte :: chars =>
    counter.run ((counter.unit byte chars).1.apply (depth + 1)) (counter.unit byte chars).2
termination_by _ chars => chars.length
decreasing_by exact Nat.lt_succ_of_le (counter.unit_suffix byte chars).length_le

/-! ### The three counters -/

/-- The characters after an apostrophe start no character literal: the first of them is neither an
apostrophe nor a backslash, and no apostrophe follows it. -/
def startsNoLiteral : List UInt8 → Bool
  | [] => false
  | first :: chars =>
    first != Ascii.apostrophe && first != Ascii.backslash && chars.head? != some Ascii.apostrophe

/-- What is left after a unit that is no group and no quoted text: a string literal, a character
literal or a lone apostrophe, a word, or a single character. -/
def passLexeme (byte : UInt8) (chars : List UInt8) : List UInt8 :=
  if byte = Ascii.doubleQuote then StringLiteral.finish chars
  else if byte = Ascii.apostrophe then
    if startsNoLiteral chars then chars else (CharLiteral.probe chars).2
  else if isWordStart byte then chars.dropWhile isWordPart
  else chars

/-- A unit of a comment. -/
def commentUnit (byte : UInt8) (chars : List UInt8) : DepthChange × List UInt8 :=
  if byte = Ascii.parenOpen ∧ chars.head? = some Ascii.star then (.deeper, chars.tail)
  else if byte = Ascii.star ∧ chars.head? = some Ascii.parenClose then (.shallower, chars.tail)
  else if byte = Ascii.braceOpen then (.level, (QuotedText.read chars .initial).reader)
  else (.level, passLexeme byte chars)

/-- A unit of embedded code. A brace with a tag and a bar after it starts a quoted text, and any
other one opens a block. -/
def codeUnit (byte : UInt8) (chars : List UInt8) : DepthChange × List UInt8 :=
  if byte = Ascii.parenOpen ∧ chars.head? = some Ascii.star then
    (.level, (readComment chars .initial).reader)
  else if byte = Ascii.braceOpen then
    let afterTag := chars.dropWhile isTagByte
    if afterTag.head? = some Ascii.bar then (.level, (QuotedText.read chars .initial).reader)
    else (.deeper, afterTag)
  else if byte = Ascii.braceClose then (.shallower, chars)
  else (.level, passLexeme byte chars)

/-- A unit of the payload of an attribute, in which braces are characters like any other. -/
def payloadUnit (byte : UInt8) (chars : List UInt8) : DepthChange × List UInt8 :=
  if byte = Ascii.parenOpen ∧ chars.head? = some Ascii.star then
    (.level, (readComment chars .initial).reader)
  else if byte = Ascii.bracketOpen then (.deeper, chars)
  else if byte = Ascii.bracketClose then (.shallower, chars)
  else (.level, passLexeme byte chars)

theorem passLexeme_suffix (byte : UInt8) (chars : List UInt8) :
    passLexeme byte chars <:+ chars := by
  rw [passLexeme]
  split
  · exact StringLiteral.rest_finish_suffix chars
  · split
    · split
      · exact List.suffix_rfl
      · exact CharLiteral.rest_probe_suffix chars
    · split
      · exact List.dropWhile_suffix _
      · exact List.suffix_rfl

/-- The depth counter of comments. -/
def commentCounter : DepthCounter where
  unit := commentUnit
  unit_suffix byte chars := by
    rw [commentUnit]
    split
    · exact List.tail_suffix chars
    · split
      · exact List.tail_suffix chars
      · split
        · exact QuotedText.rest_read_suffix chars .initial
        · exact passLexeme_suffix byte chars

/-- The depth counter of embedded code. -/
def codeCounter : DepthCounter where
  unit := codeUnit
  unit_suffix byte chars := by
    simp only [codeUnit]
    split
    · exact rest_readComment_suffix chars .initial
    · split
      · split
        · exact QuotedText.rest_read_suffix chars .initial
        · exact List.dropWhile_suffix _
      · split
        · exact List.suffix_rfl
        · exact passLexeme_suffix byte chars

/-- The depth counter of attribute payloads. -/
def payloadCounter : DepthCounter where
  unit := payloadUnit
  unit_suffix byte chars := by
    rw [payloadUnit]
    split
    · exact rest_readComment_suffix chars .initial
    · split
      · exact List.suffix_rfl
      · split
        · exact List.suffix_rfl
        · exact passLexeme_suffix byte chars

/-- The depth counter that follows a group. -/
def Enclosure.counter : Enclosure → DepthCounter
  | comment => commentCounter
  | code => codeCounter
  | bracket => payloadCounter

/-! ### The characters left by a probe -/

section Probe

variable {ρ : Type} [Reader ρ]

/-- Assumes: characters that start no literal. The probe passes the first of them and hands it
back. -/
theorem probe_of_startsNoLiteral {reader : ρ} (hstarts : startsNoLiteral (rest reader) = true) :
    CharLiteral.probe reader =
      ({ CharLiteral.absent with pending := some (current reader) }, advance reader) := by
  cases hrest : rest reader with
  | nil =>
    rw [hrest] at hstarts
    exact absurd hstarts Bool.false_ne_true
  | cons first chars =>
    rw [hrest] at hstarts
    simp only [startsNoLiteral, Bool.and_eq_true, bne_iff_ne] at hstarts
    obtain ⟨⟨hquote, hescape⟩, hclosed⟩ := hstarts
    have hcurrent : current reader = first := by rw [current_eq_headD, hrest, List.headD_cons]
    have hend : ¬ atEnd reader = true := by rw [atEnd_eq_isEmpty, hrest]; simp
    have hbody : CharLiteral.readBody reader = (.plain (current reader), advance reader) := by
      rw [CharLiteral.readBody, if_neg hend, if_neg (hcurrent ▸ hescape),
        if_neg (hcurrent ▸ hquote)]
    have hnext : current (advance reader) ≠ Ascii.apostrophe := by
      rw [current_eq_headD, rest_advance, hrest, List.tail_cons]
      cases chars with
      | nil => decide
      | cons second chars => simpa using hclosed
    simp only [CharLiteral.probe, hbody, if_neg hnext]
    rfl

/-- Assumes: a body that is no plain character. The probe hands nothing back. -/
theorem pending_probe_of_ne_plain {reader : ρ}
    (hplain : ∀ byte, (CharLiteral.readBody reader).1 ≠ .plain byte) :
    (CharLiteral.probe reader).1.pending = none := by
  simp only [CharLiteral.probe]
  split
  · rfl
  · cases hbody : (CharLiteral.readBody reader).1 with
    | plain byte => exact absurd hbody (hplain byte)
    | escape value => split <;> rfl
    | empty => split <;> rfl
    | malformed => split <;> rfl

/-- Assumes: characters of which a literal may start. The probe hands nothing back. -/
theorem pending_probe_eq_none {reader : ρ} (hstarts : startsNoLiteral (rest reader) = false) :
    (CharLiteral.probe reader).1.pending = none := by
  by_cases hend : atEnd reader = true
  · refine pending_probe_of_ne_plain fun byte ↦ ?_
    rw [CharLiteral.readBody, if_pos hend]
    simp
  by_cases hescape : current reader = Ascii.backslash
  · refine pending_probe_of_ne_plain fun byte ↦ ?_
    rw [CharLiteral.readBody, if_neg hend, if_pos hescape]
    exact CharLiteral.readEscape_ne_plain _ byte
  by_cases hquote : current reader = Ascii.apostrophe
  · refine pending_probe_of_ne_plain fun byte ↦ ?_
    rw [CharLiteral.readBody, if_neg hend, if_neg hescape, if_pos hquote]
    simp
  -- The body is a plain character, so the literal must be closed.
  have hclosed : current (advance reader) = Ascii.apostrophe := by
    rw [rest_eq_cons (by simpa using hend)] at hstarts
    simp only [startsNoLiteral, Bool.and_eq_false_iff, bne_eq_false_iff_eq, hquote, hescape,
      false_or] at hstarts
    rw [current_eq_headD, rest_advance, List.headD_eq_head?_getD, hstarts, Option.getD_some]
  have hbody : CharLiteral.readBody reader = (.plain (current reader), advance reader) := by
    rw [CharLiteral.readBody, if_neg hend, if_neg hescape, if_neg hquote]
  simp only [CharLiteral.probe, hbody, if_pos hclosed]
  rfl

end Probe

variable {ρ : Type} [SeekReader ρ]

/-- What a probe hands back comes before what it has not read: these are all of the characters if no
literal starts with them, and what the probe leaves of them otherwise. -/
theorem pending_append_rest_probe (reader : ρ) :
    (CharLiteral.probe reader).1.pending.toList ++ rest (CharLiteral.probe reader).2 =
      if startsNoLiteral (rest reader) then rest reader
      else (CharLiteral.probe (rest reader)).2 := by
  cases hstarts : startsNoLiteral (rest reader) with
  | true =>
    have hend : atEnd reader = false := by
      rw [atEnd_eq_isEmpty]
      cases hrest : rest reader with
      | nil => simp [hrest, startsNoLiteral] at hstarts
      | cons first chars => rfl
    rw [probe_of_startsNoLiteral hstarts, rest_advance, if_pos rfl]
    exact (rest_eq_cons hend).symm
  | false =>
    rw [pending_probe_eq_none hstarts, rest_probe, if_neg Bool.false_ne_true]
    rfl

/-! ### A turn is a unit -/

/-- A turn of a group does what a unit of its depth counter does. A comment inside of the group is
one unit. A group that opens at the end of the text may count as no change, since either way the end
rejects. -/
inductive Follows (group : Enclosure) : Turn ρ → DepthChange × List UInt8 → Prop
  | close (reader : ρ) (context : Context) :
    Follows group (.close reader context) (.shallower, rest reader)
  | nest (reader : ρ) (context : Context) :
    Follows group (.nest group reader context) (.deeper, rest reader)
  | hold (reader : ρ) (context : Context) :
    Follows group (.hold reader context) (.level, rest reader)
  | unit (pending : Option UInt8) (reader : ρ) (context : Context) :
    Follows group (.unit pending reader context) (.level, pending.toList ++ rest reader)
  | comment (reader : ρ) (context : Context) :
    Follows group (.nest .comment reader context)
      (.level, rest (Nesting.enter .comment [] reader context).run.reader)
  | exhausted {reader : ρ} (context : Context) (hrest : rest reader = []) :
    Follows group (.nest group reader context) (.level, [])

/-- Assumes: a character other than zero. A reader shows it exactly when it is the next one. -/
theorem current_eq_iff_head? {reader : ρ} {byte : UInt8} (hbyte : byte ≠ 0) :
    current reader = byte ↔ (rest reader).head? = some byte := by
  rw [current_eq_headD]
  cases rest reader with
  | nil => simpa using hbyte.symm
  | cons first chars => simp

/-- Assumes: a character that opens no comment. Its turn passes one lexeme. -/
theorem follows_lexeme (group : Enclosure) {byte : UInt8} {reader : ρ} (context : Context)
    (hcomment : ¬ (byte = Ascii.parenOpen ∧ (rest reader).head? = some Ascii.star)) :
    Follows group (group.commonTurn byte reader context)
      (.level, passLexeme byte (rest reader)) := by
  rw [Enclosure.commonTurn]
  split
  · rename_i hparen
    have hstar : ¬ current reader = Ascii.star := by
      rw [current_eq_iff_head? (by decide)]
      exact fun hstar ↦ hcomment ⟨hparen, hstar⟩
    have hpass : passLexeme byte (rest reader) = rest reader := by
      rw [hparen]
      rfl
    rw [if_neg hstar, hpass]
    exact .unit none reader context
  · split
    · rename_i hquote
      have hpass : passLexeme byte (rest reader) =
          if startsNoLiteral (rest reader) then rest reader
          else (CharLiteral.probe (rest reader)).2 := by
        rw [hquote]
        rfl
      rw [hpass, ← Enclosure.rest_mark group reader, ← pending_append_rest_probe]
      exact .unit _ _ context
    · rename_i hquote
      split
      · rename_i hstring
        have hpass : passLexeme byte (rest reader) = StringLiteral.finish (rest reader) := by
          rw [passLexeme, if_pos hstring]
        rw [hpass, ← rest_finish]
        exact .unit none _ context
      · rename_i hstring
        split
        · rename_i hword
          have hpass : passLexeme byte (rest reader) = (rest reader).dropWhile isWordPart := by
            rw [passLexeme, if_neg hstring, if_neg hquote, if_pos hword]
          rw [hpass, ← rest_advanceWhile]
          exact .unit none _ context
        · rename_i hword
          have hpass : passLexeme byte (rest reader) = rest reader := by
            rw [passLexeme, if_neg hstring, if_neg hquote, if_neg hword]
          rw [hpass]
          exact .unit none reader context

/-- A parenthesis in front of a star opens a comment in every group. -/
theorem commonTurn_of_comment (group : Enclosure) {reader : ρ} (context : Context)
    (hstar : (rest reader).head? = some Ascii.star) :
    group.commonTurn Ascii.parenOpen reader context = .nest .comment (advance reader) context := by
  rw [Enclosure.commonTurn, if_pos rfl, if_pos ((current_eq_iff_head? (by decide)).mpr hstar)]

/-- Assumes: a star in front of the reader. The comment that it opens passes what it passes when it
is read from the characters alone. -/
theorem rest_run_enter_comment {reader : ρ} (context : Context)
    (hstar : (rest reader).head? = some Ascii.star) :
    rest (Nesting.enter .comment [] (advance reader) context).run.reader =
      (readComment (rest reader) .initial).reader := by
  rw [← rest_readComment reader context .initial, readComment,
    if_pos ((current_eq_iff_head? (by decide)).mpr hstar)]

/-- The turns of a comment are the units of its depth counter. -/
theorem follows_commentTurn (byte : UInt8) (reader : ρ) (context : Context) :
    Follows .comment (Enclosure.turn .comment byte reader context)
      (commentUnit byte (rest reader)) := by
  have hclose : current reader = Ascii.parenClose ↔ (rest reader).head? = some Ascii.parenClose :=
    current_eq_iff_head? (by decide)
  simp only [commentUnit, Enclosure.turn, Enclosure.commentTurn, hclose]
  by_cases hopen : byte = Ascii.parenOpen ∧ (rest reader).head? = some Ascii.star
  · obtain ⟨rfl, hstar⟩ := hopen
    rw [if_neg (fun hclose ↦ absurd hclose.1 (by decide)), if_neg (by decide), if_pos ⟨rfl, hstar⟩,
      commonTurn_of_comment .comment context hstar, ← rest_advance]
    exact .nest (advance reader) context
  · rw [if_neg hopen]
    split
    · rw [← rest_advance]
      exact .close (advance reader) context
    · split
      · rw [← (rest_quotedText reader context .initial).2]
        exact .unit none _ _
      · exact follows_lexeme .comment context hopen

/-- Assumes: characters that open no quoted text. The attempt at one passes the tag. -/
theorem quotedText_of_no_opening {reader : ρ} (context : Context)
    (hbar : ((rest reader).dropWhile isTagByte).head? ≠ some Ascii.bar) :
    (QuotedText.read reader context).matched = false ∧
      rest (QuotedText.read reader context).reader = (rest reader).dropWhile isTagByte := by
  have hcurrent : ¬ current (advanceWhile isTagByte reader) = Ascii.bar := by
    rw [current_eq_iff_head? (by decide), rest_advanceWhile]
    exact hbar
  simp only [QuotedText.read, QuotedText.readOpening, takeWhile_eq, if_neg hcurrent]
  exact ⟨rfl, rest_advanceWhile isTagByte reader⟩

/-- A search that finds no closer reads the text to its end. -/
theorem rest_findCloser_eq_nil {tag : List UInt8} {reader : ρ}
    (hclosed : (QuotedText.findCloser tag reader).1 = false) :
    rest (QuotedText.findCloser tag reader).2 = [] := by
  fun_induction QuotedText.findCloser tag reader with
  | case1 reader hend => exact rest_eq_nil hend
  | case2 reader hend hbar candidate hmatched =>
    rw [hclosed] at hmatched
    cases hmatched
  | case3 reader hend hbar candidate hmatched ih => exact ih hclosed
  | case4 reader hend hbar ih => exact ih hclosed

/-- Assumes: characters that open a quoted text which is never closed. The text is read to its
end. -/
theorem rest_quotedText_eq_nil {reader : ρ} {context : Context}
    (hbar : ((rest reader).dropWhile isTagByte).head? = some Ascii.bar)
    (hmatched : (QuotedText.read reader context).matched = false) :
    rest (QuotedText.read reader context).reader = [] := by
  have hcurrent : current (advanceWhile isTagByte reader) = Ascii.bar := by
    rw [current_eq_iff_head? (by decide), rest_advanceWhile]
    exact hbar
  simp only [QuotedText.read, QuotedText.readOpening, takeWhile_eq, if_pos hcurrent] at hmatched ⊢
  exact rest_findCloser_eq_nil hmatched

/-- A brace in a code block starts a quoted text or opens a block, by what follows it. -/
theorem follows_brace (reader : ρ) (context : Context) :
    Follows .code
      (if (QuotedText.read reader context).matched then
        .unit none (QuotedText.read reader context).reader
          (QuotedText.read reader context).context
      else .nest .code (QuotedText.read reader context).reader
        (QuotedText.read reader context).context)
      (if ((rest reader).dropWhile isTagByte).head? = some Ascii.bar then
        (.level, (QuotedText.read (rest reader) .initial).reader)
      else (.deeper, (rest reader).dropWhile isTagByte)) := by
  by_cases hbar : ((rest reader).dropWhile isTagByte).head? = some Ascii.bar
  · rw [if_pos hbar, ← (rest_quotedText reader context .initial).2]
    cases hmatched : (QuotedText.read reader context).matched with
    | true => exact .unit none _ _
    | false =>
      have hrest := rest_quotedText_eq_nil hbar hmatched
      rw [hrest]
      exact .exhausted _ hrest
  · obtain ⟨hmatched, hrest⟩ := quotedText_of_no_opening context hbar
    rw [if_neg hbar, hmatched, ← hrest]
    exact .nest _ _

/-- The turns of a code block are the units of its depth counter. -/
theorem follows_codeTurn (byte : UInt8) (reader : ρ) (context : Context) :
    Follows .code (Enclosure.turn .code byte reader context) (codeUnit byte (rest reader)) := by
  simp only [codeUnit, Enclosure.turn, Enclosure.codeTurn]
  by_cases hopen : byte = Ascii.parenOpen ∧ (rest reader).head? = some Ascii.star
  · obtain ⟨rfl, hstar⟩ := hopen
    rw [if_neg (by decide), if_neg (by decide),
      if_neg (fun hpercent ↦ absurd hpercent.1 (by decide)), if_pos ⟨rfl, hstar⟩,
      commonTurn_of_comment .code context hstar, ← rest_run_enter_comment context hstar]
    exact .comment (advance reader) context
  · rw [if_neg hopen]
    by_cases hclose : byte = Ascii.braceClose
    · subst hclose
      exact .close reader context
    · rw [if_neg hclose, if_neg hclose]
      by_cases hbrace : byte = Ascii.braceOpen
      · rw [if_pos hbrace, if_pos hbrace]
        exact follows_brace reader context
      · rw [if_neg hbrace, if_neg hbrace]
        split
        · rename_i hpercent
          have hpass : passLexeme byte (rest reader) = rest reader := by
            rw [hpercent.1]
            rfl
          rw [hpass]
          exact .hold reader context
        · exact follows_lexeme .code context hopen

/-- The turns of a bracket group are the units of the depth counter of payloads. -/
theorem follows_bracketTurn (byte : UInt8) (reader : ρ) (context : Context) :
    Follows .bracket (Enclosure.turn .bracket byte reader context)
      (payloadUnit byte (rest reader)) := by
  rw [payloadUnit, Enclosure.turn, Enclosure.bracketTurn]
  by_cases hopen : byte = Ascii.parenOpen ∧ (rest reader).head? = some Ascii.star
  · obtain ⟨rfl, hstar⟩ := hopen
    rw [if_neg (by decide), if_neg (by decide), if_pos ⟨rfl, hstar⟩,
      commonTurn_of_comment .bracket context hstar, ← rest_run_enter_comment context hstar]
    exact .comment (advance reader) context
  · rw [if_neg hopen]
    by_cases hclose : byte = Ascii.bracketClose
    · subst hclose
      exact .close reader context
    · rw [if_neg hclose, if_neg hclose]
      split
      · exact .nest reader context
      · exact follows_lexeme .bracket context hopen

/-! ### A run is a count -/

/-- What an outcome tells about the text: the verdict and the characters left. -/
def Outcome.verdict (outcome : Outcome ρ) : Bool × List UInt8 :=
  (outcome.matched, rest outcome.reader)

theorem Outcome.verdict_eq_iff {outcome : Outcome ρ} {matched : Bool} {chars : List UInt8} :
    outcome.verdict = (matched, chars) ↔
      outcome.matched = matched ∧ rest outcome.reader = chars := by
  rw [Outcome.verdict, Prod.mk.injEq]

theorem verdict_run_of_remaining_eq_nil {nesting : Nesting ρ}
    (hremaining : nesting.remaining = []) : nesting.run.verdict = (false, []) := by
  cases hnext : nesting.next? with
  | none =>
    rw [Nesting.run_of_step_eq_done (Nesting.step_of_next?_eq_none hnext), Outcome.verdict,
      Nesting.abandon, Nesting.rest_foldl_mark]
    rw [Nesting.remaining, List.append_eq_nil_iff] at hremaining
    rw [hremaining.2]
  | some byte =>
    rw [Nesting.remaining_eq_cons hnext] at hremaining
    cases hremaining

/-- Assumes: a comment inside of other groups, with the outcome that it has on its own. It is a unit
of the nearest of the groups, and if it is never closed the text ends inside of all of them. -/
theorem verdict_run_enter_comment {reader : ρ} {context : Context} {inner : Outcome ρ}
    (hinner : (Nesting.enter .comment [] reader context).run = inner) (group : Enclosure)
    (outer : List Enclosure) :
    (Nesting.enter .comment (group :: outer) reader context).run.verdict =
      if inner.matched then (Nesting.enter group outer inner.reader inner.context).run.verdict
      else (false, []) := by
  have hwithin : (Nesting.enter .comment (group :: outer) reader context).run =
      Nesting.resume (group :: outer) inner := by
    rw [← hinner]
    exact Nesting.run_within (Nesting.enter .comment [] reader context) (group :: outer)
  rw [hwithin, Nesting.resume]
  split
  · rfl
  · rename_i hmatched
    have hrest : rest inner.reader = [] := by
      rw [← hinner] at hmatched ⊢
      exact Nesting.rest_run_eq_nil (by simpa using hmatched)
    rw [Outcome.verdict, Nesting.rest_foldl_mark, hrest]
    simpa using hmatched

variable {group : Enclosure} {counter : DepthCounter}

/-- Assumes: a group whose turns are the units of a depth counter. A run with `depth` such groups
around the innermost one is a count from `depth + 1`, over the characters still to be taken. -/
theorem verdict_run_eq_depthCounter
    (hfollows : ∀ byte (reader : ρ) context,
      Follows group (group.turn byte reader context) (counter.unit byte (rest reader)))
    {nesting : Nesting ρ} {depth : Nat} (hgroup : nesting.group = group)
    (houter : nesting.outer = List.replicate depth group) :
    nesting.run.verdict = counter.run (depth + 1) nesting.remaining := by
  -- The weight, not the run, is what the induction is on: a whole comment may lie between two
  -- configurations.
  induction hweight : nesting.weight using Nat.strongRecOn generalizing nesting depth with
  | ind weight ih =>
    subst hweight
    cases hnext : nesting.next? with
    | none =>
      have hremaining := Nesting.remaining_eq_nil hnext
      rw [verdict_run_of_remaining_eq_nil hremaining, hremaining, DepthCounter.run]
    | some byte =>
      have hlt := Nesting.two_mul_length_rest_turn_lt hnext
      have hturn := hfollows byte nesting.takeNext nesting.context
      rw [Nesting.remaining_eq_cons hnext, DepthCounter.run]
      subst hgroup
      have henter : ∀ depth (reader : ρ) context, 2 * (rest reader).length < nesting.weight →
          (Nesting.enter nesting.group (List.replicate depth nesting.group) reader
            context).run.verdict = counter.run (depth + 1) (rest reader) := by
        intro depth reader context hless
        rw [← Nesting.remaining_enter nesting.group (List.replicate depth nesting.group) reader
          context]
        exact ih _ (by rw [Nesting.weight_enter]; exact hless) rfl rfl rfl
      generalize hresult : nesting.group.turn byte nesting.takeNext nesting.context = turn
        at hturn hlt
      generalize counter.unit byte (rest nesting.takeNext) = unit at hturn ⊢
      cases hturn with
      | close reader context =>
        rw [Nesting.run_of_step_eq_leave (Nesting.step_of_turn_eq_close hnext hresult), houter]
        cases depth with
        | zero =>
          rw [DepthChange.apply, DepthCounter.run]
          rfl
        | succ depth => exact henter depth reader context hlt
      | nest reader context =>
        rw [Nesting.run_of_step_eq_more (Nesting.step_of_turn_eq_nest hnext hresult), houter]
        exact henter (depth + 1) reader context hlt
      | hold reader context =>
        have hstep := Nesting.step_of_turn_eq_hold hnext hresult
        rw [Nesting.run_of_step_eq_more hstep]
        exact ih _ (Nesting.weight_lt_of_step_eq_more hstep) rfl houter rfl
      | unit pending reader context =>
        have hstep := Nesting.step_of_turn_eq_unit hnext hresult
        rw [Nesting.run_of_step_eq_more hstep,
          ← Nesting.rest_afterUnit nesting.group pending reader]
        exact ih _ (Nesting.weight_lt_of_step_eq_more hstep) rfl houter rfl
      | comment reader context =>
        rw [Nesting.run_of_step_eq_more (Nesting.step_of_turn_eq_nest hnext hresult),
          verdict_run_enter_comment rfl, houter]
        split
        · refine henter depth _ _ (Nat.lt_of_le_of_lt (Nat.mul_le_mul_left 2 ?_) hlt)
          exact (Nesting.rest_run_suffix (Nesting.enter .comment [] reader context)).length_le
        · rename_i hmatched
          rw [Nesting.rest_run_eq_nil (by simpa using hmatched), DepthChange.apply,
            DepthCounter.run]
      | exhausted context hrest =>
        rw [Nesting.run_of_step_eq_more (Nesting.step_of_turn_eq_nest hnext hresult),
          verdict_run_of_remaining_eq_nil (by rw [Nesting.remaining_enter, hrest]),
          DepthChange.apply, DepthCounter.run]

/-- The run of a group that is entered from outside is a count from depth one. -/
theorem Enclosure.verdict_run_enter (group : Enclosure) (reader : ρ)
    (context : Context) :
    (Nesting.enter group [] reader context).run.verdict = group.counter.run 1 (rest reader) := by
  rw [← Nesting.remaining_enter group [] reader context]
  cases group with
  | comment => exact verdict_run_eq_depthCounter follows_commentTurn rfl rfl
  | code => exact verdict_run_eq_depthCounter follows_codeTurn rfl rfl
  | bracket => exact verdict_run_eq_depthCounter follows_bracketTurn rfl rfl
/-- A string literal in code is passed and the depth stays. -/
theorem codeCounter_run_doubleQuote (depth : Nat) (chars : List UInt8) :
    codeCounter.run (depth + 1) (Ascii.doubleQuote :: chars) =
      codeCounter.run (depth + 1) (StringLiteral.finish chars) := by
  rw [DepthCounter.run]
  rfl

/-- A count that does not accept has come to the end of the text. -/
theorem DepthCounter.run_accepts_or_ends (counter : DepthCounter) (depth : Nat)
    (chars : List UInt8) :
    (counter.run depth chars).1 = true ∨ (counter.run depth chars).2 = [] := by
  fun_induction DepthCounter.run counter depth chars with
  | case1 chars => exact .inl rfl
  | case2 depth => exact .inr rfl
  | case3 depth byte chars ih => exact ih

/-- Assumes: an outcome with the verdict of a count. It is a match exactly when the count accepts,
the same characters are left, and none are left if the count rejects. -/
theorem agrees_of_verdict_eq {outcome : Outcome ρ} {depth : Nat} {chars : List UInt8}
    (hcount : outcome.verdict = counter.run depth chars) :
    (outcome.matched = true ↔ (counter.run depth chars).1 = true) ∧
      rest outcome.reader = (counter.run depth chars).2 ∧
      ((counter.run depth chars).1 = true ∨ rest outcome.reader = []) := by
  have hends := counter.run_accepts_or_ends depth chars
  rw [← hcount] at hends ⊢
  exact ⟨Iff.rfl, rfl, hends⟩

/-- Assumes: a reader at the star of a comment whose parenthesis has been passed. In every context
the comment is found complete exactly when the depth counter of comments, which starts at depth one
after the star, accepts; the same characters are left, and none are left if it rejects. -/
theorem readComment_eq_depthCounter (reader : ρ) (context : Context)
    (hstar : current reader = Ascii.star) :
    ((readComment reader context).matched = true ↔
        (commentCounter.run 1 (rest reader).tail).1 = true) ∧
      rest (readComment reader context).reader = (commentCounter.run 1 (rest reader).tail).2 ∧
      ((commentCounter.run 1 (rest reader).tail).1 = true ∨
        rest (readComment reader context).reader = []) := by
  have hcount : (readComment reader context).verdict =
      commentCounter.run 1 (rest reader).tail := by
    rw [readComment, if_pos hstar, ← rest_advance]
    exact Enclosure.comment.verdict_run_enter (advance reader) context
  exact agrees_of_verdict_eq hcount

/-- A comment with a double quote as a character literal, a closer inside of a quoted text and a
nested comment. -/
theorem readComment_eq_depthCounter_witness :
    let reader := (Source.mk "(* '\"' {|*)|} (* *) *) x").readerAt 1
    current reader = Ascii.star ∧ (readComment reader .initial).matched = true ∧
      rest (readComment reader .initial).reader = [0x20, 0x78] := by
  intro reader
  have hstar : current reader = Ascii.star := by decide
  have hcount : commentCounter.run 1 (rest reader).tail = (true, [0x20, 0x78]) := by
    decide +kernel
  obtain ⟨hmatched, hrest, -⟩ := readComment_eq_depthCounter reader .initial hstar
  rw [hcount] at hmatched hrest
  exact ⟨hstar, hmatched.mpr rfl, hrest⟩

/-- In every context embedded code and the payload of an attribute are found complete exactly when
the depth counter of their kind accepts from depth one; the same characters are left, and none are
left if it rejects. -/
theorem readCode_readPayload_eq_depthCounter (reader : ρ) (context : Context) :
    (((readCode reader context).matched = true ↔ (codeCounter.run 1 (rest reader)).1 = true) ∧
        rest (readCode reader context).reader = (codeCounter.run 1 (rest reader)).2 ∧
        ((codeCounter.run 1 (rest reader)).1 = true ∨
          rest (readCode reader context).reader = [])) ∧
      ((readPayload reader context).matched = true ↔
          (payloadCounter.run 1 (rest reader)).1 = true) ∧
        rest (readPayload reader context).reader = (payloadCounter.run 1 (rest reader)).2 ∧
        ((payloadCounter.run 1 (rest reader)).1 = true ∨
          rest (readPayload reader context).reader = []) := by
  have hcode : (readCode reader context).verdict = codeCounter.run 1 (rest reader) :=
    Enclosure.code.verdict_run_enter reader context
  have hpayload : (readPayload reader context).verdict = payloadCounter.run 1 (rest reader) :=
    Enclosure.bracket.verdict_run_enter reader context
  exact ⟨agrees_of_verdict_eq hcode, agrees_of_verdict_eq hpayload⟩

end GrammarFragments
