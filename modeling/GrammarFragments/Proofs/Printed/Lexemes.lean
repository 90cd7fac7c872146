import GrammarFragments.Proofs.Nesting.Depth
import GrammarFragments.Proofs.Printed.Characters

/-!
Lexemes as they are written, and how they are passed. A written lexeme is a value that holds the
proof of its form: a word with characters of a word, a string literal made of plain characters and
escaped ones, a character literal whose body is one character or an escape, a quoted text whose body
does not hold its closer. Whatever comes after its last character, a string literal, a character
literal and a quoted text are passed up to that character (`finish_text`, `probe_text`,
`read_text`); a word is passed as a whole if a blank comes after it.
-/

set_option autoImplicit false
set_option relaxedAutoImplicit false

namespace GrammarFragments

open Reader Source

/-! ### Words -/

/-- A word starts with a letter of ASCII or an underscore. -/
def startsWord (char : Char) : Bool := char.isAlpha || char == '_'

/-- A word goes on with letters and digits of ASCII, underscores and apostrophes. -/
def continuesWord (char : Char) : Bool := char.isAlphanum || char == '_' || char == '\x27'

/-- A tag is made of lower-case letters of ASCII and underscores. -/
def belongsToTag (char : Char) : Bool := char.isLower || char == '_'

theorem toNat_lt_of_isAlphanum {char : Char} (hchar : char.isAlphanum = true) :
    char.toNat < 0x80 := by
  have hranges : char.isAlphanum = (decide (char.val ≥ 'A'.val ∧ char.val ≤ 'Z'.val) ||
      (decide (char.val ≥ 'a'.val) && decide (char.val ≤ 'z'.val)) ||
      (decide (char.val ≥ '0'.val) && decide (char.val ≤ '9'.val))) := rfl
  simp only [hranges, Bool.or_eq_true, Bool.and_eq_true, decide_eq_true_eq,
    UInt32.le_iff_toNat_le, ge_iff_le] at hchar
  have hcode : char.toNat = char.val.toNat := rfl
  have hupper : 'Z'.val.toNat = 90 := rfl
  have hlower : 'z'.val.toNat = 122 := rfl
  have hdigit : '9'.val.toNat = 57 := rfl
  omega

theorem isWordStart_leadByte (char : Char) : isWordStart (leadByte char) = startsWord char := by
  refine accept_leadByte asciiOnly_isWordStart ?_ (by decide +kernel) char
  intro char hstart
  rw [startsWord, Bool.or_eq_true, beq_iff_eq] at hstart
  rcases hstart with halpha | rfl
  · refine toNat_lt_of_isAlphanum ?_
    rw [Char.isAlphanum, halpha, Bool.true_or]
  · decide

theorem isWordPart_leadByte (char : Char) : isWordPart (leadByte char) = continuesWord char := by
  refine accept_leadByte asciiOnly_isWordPart ?_ (by decide +kernel) char
  intro char hpart
  rw [continuesWord, Bool.or_eq_true, Bool.or_eq_true, beq_iff_eq, beq_iff_eq] at hpart
  rcases hpart with (halphanum | rfl) | rfl
  · exact toNat_lt_of_isAlphanum halphanum
  · decide
  · decide

theorem toNat_lt_of_belongsToTag {char : Char} (htag : belongsToTag char = true) :
    char.toNat < 0x80 := by
  rw [belongsToTag, Bool.or_eq_true, beq_iff_eq] at htag
  rcases htag with hlower | rfl
  · have halpha : char.isAlpha = (char.isUpper || char.isLower) := rfl
    refine toNat_lt_of_isAlphanum ?_
    rw [Char.isAlphanum, halpha, hlower, Bool.or_true, Bool.true_or]
  · decide

theorem isTagByte_leadByte (char : Char) : isTagByte (leadByte char) = belongsToTag char :=
  accept_leadByte asciiOnly_isTagByte (fun _ htag ↦ toNat_lt_of_belongsToTag htag)
    (by decide +kernel) char

/-- A word. -/
structure Word where
  first : Char
  others : List Char
  startsWord_first : startsWord first = true
  continuesWord_others : ∀ char ∈ others, continuesWord char = true

/-- In front of a blank a word ends. -/
theorem Word.dropWhile_others (word : Word) (more : List UInt8) :
    (reported word.others ++ 0x20 :: more).dropWhile isWordPart = 0x20 :: more := by
  rw [List.dropWhile_append_of_pos, List.dropWhile_cons_of_neg (by decide)]
  intro byte hbyte
  obtain ⟨char, hchar, rfl⟩ := List.mem_map.mp hbyte
  rw [isWordPart_leadByte]
  exact word.continuesWord_others char hchar

/-! ### String literals -/

/-- A piece of the content of a string literal. -/
inductive StringPiece
  | plain (char : Char) (hquote : char ≠ '\x22') (hescape : char ≠ '\\')
  /-- A backslash with the character after it. -/
  | escaped (char : Char)

/-- The characters of a piece. -/
def StringPiece.text : StringPiece → List Char
  | plain char _ _ => [char]
  | escaped char => ['\\', char]

namespace StringLiteral

/-- A string literal is passed up to its closing quote. -/
theorem finish_text (pieces : List StringPiece) (more : List UInt8) :
    finish (reported (pieces.flatMap StringPiece.text) ++ Ascii.doubleQuote :: more) = more := by
  induction pieces with
  | nil => exact finish_quote more
  | cons piece pieces ih =>
    rw [List.flatMap_cons, reported_append, List.append_assoc]
    cases piece with
    | plain char hquote hescape =>
      have hstop : isStringStop (leadByte char) = false := by
        rw [isStringStop, Bool.or_eq_false_iff, beq_eq_false_iff_ne, beq_eq_false_iff_ne]
        exact ⟨mt (leadByte_eq_iff '\x22' (by decide)).mp hquote,
          mt (leadByte_eq_iff '\\' (by decide)).mp hescape⟩
      exact (finish_plain _ hstop).trans ih
    | escaped char => exact (finish_escaped (leadByte char) _).trans ih

end StringLiteral

/-! ### Character literals -/

/-- What stands between the apostrophes of a character literal: a character, or a backslash with
characters that the probe accepts as an escape. -/
inductive CharBody
  | plain (char : Char) (hquote : char ≠ '\x27') (hescape : char ≠ '\\')
  | escape (chars : List Char)
    (hwellFormed :
      (CharLiteral.probe (reported ('\\' :: chars ++ ['\x27']))).1.wellFormed = true)
    (hends : (CharLiteral.probe (reported ('\\' :: chars ++ ['\x27']))).2 = [])

/-- The characters of a body. -/
def CharBody.text : CharBody → List Char
  | plain char _ _ => [char]
  | escape chars _ _ => '\\' :: chars

namespace CharLiteral

/-- Assumes: a class without zero, which stands for the end of the text. Digits that are all there
are read in the same way whatever comes after them. -/
theorem readDigits_append {accept : UInt8 → Bool} (hzero : accept 0 = false) (base : Nat)
    {count value result : Nat} {chars : List UInt8}
    (hresult : (readDigits accept base count value chars).1 = some result) (more : List UInt8) :
    readDigits accept base count value (chars ++ more) =
      (some result, (readDigits accept base count value chars).2 ++ more) := by
  induction count generalizing value chars with
  | zero =>
    cases hresult
    rfl
  | succ count ih =>
    have haccept : accept (current chars) = true := by
      by_contra hrefused
      rw [readDigits, if_neg hrefused] at hresult
      cases hresult
    cases chars with
    | nil =>
      change accept 0 = true at haccept
      rw [hzero] at haccept
      cases haccept
    | cons byte chars =>
      rw [current_cons] at haccept
      simp only [readDigits, List.cons_append, current_cons, advance_cons, haccept, if_true]
        at hresult ⊢
      exact ih hresult

/-- Only digits that are all there make a numeric escape. -/
theorem exists_of_numericBody {value? : Option Nat} {value : UInt8}
    (hbody : numericBody value? = .escape value) : ∃ result, value? = some result := by
  cases value? with
  | none => cases hbody
  | some result => exact ⟨result, rfl⟩

/-- A numeric escape that is complete is read in the same way whatever comes after it. -/
theorem numericBody_append {accept : UInt8 → Bool} (hzero : accept 0 = false) (base count : Nat)
    {chars : List UInt8} {value : UInt8}
    (hbody : numericBody (readDigits accept base count 0 chars).1 = .escape value)
    (more : List UInt8) :
    (numericBody (readDigits accept base count 0 (chars ++ more)).1,
        (readDigits accept base count 0 (chars ++ more)).2) =
      (.escape value, (readDigits accept base count 0 chars).2 ++ more) := by
  obtain ⟨result, hresult⟩ := exists_of_numericBody hbody
  rw [readDigits_append hzero base hresult more, ← hbody, hresult]

/-- An escape that is complete is read in the same way whatever comes after it. -/
theorem readEscape_append {chars : List UInt8} {value : UInt8}
    (hescape : (readEscape chars).1 = .escape value) (more : List UInt8) :
    readEscape (chars ++ more) = (.escape value, (readEscape chars).2 ++ more) := by
  cases chars with
  | nil => cases hescape
  | cons byte chars =>
    simp only [readEscape, List.cons_append, current_cons, advance_cons] at hescape ⊢
    by_cases hdecimal : isDecimalDigit byte = true
    · simp only [hdecimal, if_true] at hescape ⊢
      exact numericBody_append rfl 8 3 hescape more
    · simp only [hdecimal] at hescape ⊢
      by_cases hhex : byte = 0x78
      · simp only [hhex, if_true] at hescape ⊢
        exact numericBody_append rfl 16 2 hescape more
      · simp only [hhex, if_false] at hescape ⊢
        by_cases hoctal : byte = 0x6F
        · simp only [hoctal, if_true] at hescape ⊢
          exact numericBody_append rfl 8 3 hescape more
        · simp only [hoctal, if_false] at hescape ⊢
          cases hsimple : simpleEscape? byte with
          | none =>
            rw [hsimple] at hescape
            cases hescape
          | some simple =>
            rw [hsimple] at hescape
            cases hescape
            rfl

/-- A body that is complete is read in the same way whatever comes after it. -/
theorem readBody_append {chars : List UInt8}
    (hwellFormed : (ofBody (readBody chars).1).wellFormed = true) (more : List UInt8) :
    readBody (chars ++ more) = ((readBody chars).1, (readBody chars).2 ++ more) := by
  cases chars with
  | nil => cases hwellFormed
  | cons byte chars =>
    simp only [readBody, List.cons_append, current_cons, advance_cons, atEnd_cons,
      Bool.false_eq_true, if_false] at hwellFormed ⊢
    by_cases hescape : byte = Ascii.backslash
    · simp only [hescape, if_true] at hwellFormed ⊢
      cases hbody : (readEscape chars).1 with
      | escape value => exact readEscape_append hbody more
      | plain plain => exact absurd hbody (readEscape_ne_plain chars plain)
      | empty =>
        rw [hbody] at hwellFormed
        cases hwellFormed
      | malformed =>
        rw [hbody] at hwellFormed
        cases hwellFormed
    · simp only [hescape, if_false] at hwellFormed ⊢
      by_cases hempty : byte = Ascii.apostrophe
      · simp only [hempty, if_true] at hwellFormed
        cases hwellFormed
      · simp only [hempty, if_false]

/-- A literal that is well formed has a body and a closing apostrophe. -/
theorem closed_of_wellFormed {chars : List UInt8}
    (hwellFormed : (probe chars).1.wellFormed = true) :
    (ofBody (readBody chars).1).wellFormed = true ∧ ∃ left,
      (readBody chars).2 = Ascii.apostrophe :: left ∧
      probe chars = (ofBody (readBody chars).1, left) := by
  simp only [probe] at hwellFormed ⊢
  by_cases hmalformed : (readBody chars).1 = .malformed
  · rw [if_pos hmalformed] at hwellFormed
    cases hwellFormed
  · rw [if_neg hmalformed] at hwellFormed ⊢
    by_cases hclosed : current (readBody chars).2 = Ascii.apostrophe
    · rw [if_pos hclosed] at hwellFormed ⊢
      cases hstopped : (readBody chars).2 with
      | nil =>
        rw [hstopped] at hclosed
        exact absurd hclosed (by decide)
      | cons byte left =>
        rw [hstopped, current_cons] at hclosed
        exact ⟨hwellFormed, left, by rw [hclosed], rfl⟩
    · rw [if_neg hclosed] at hwellFormed
      cases hbody : (readBody chars).1 with
      | escape value | plain byte | empty | malformed =>
        rw [hbody] at hwellFormed
        cases hwellFormed

/-- A literal that is well formed is read in the same way whatever comes after it. -/
theorem probe_append {chars : List UInt8} (hwellFormed : (probe chars).1.wellFormed = true)
    (more : List UInt8) : probe (chars ++ more) = ((probe chars).1, (probe chars).2 ++ more) := by
  obtain ⟨hbody, left, hstopped, hprobe⟩ := closed_of_wellFormed hwellFormed
  have hmalformed : (readBody chars).1 ≠ .malformed := by
    intro hmalformed
    rw [hmalformed] at hbody
    cases hbody
  have happend := readBody_append hbody more
  rw [hstopped, List.cons_append] at happend
  rw [hprobe, probe, happend]
  simp only [if_neg hmalformed, current_cons, advance_cons, if_true]

/-- A character literal is passed up to its closing apostrophe. -/
theorem probe_text (body : CharBody) (more : List UInt8) :
    (probe (reported body.text ++ Ascii.apostrophe :: more)).2 = more ∧
      startsNoLiteral (reported body.text ++ Ascii.apostrophe :: more) = false := by
  cases body with
  | plain char hquote hescape =>
    have hplain : leadByte char ≠ Ascii.apostrophe :=
      mt (leadByte_eq_iff '\x27' (by decide)).mp hquote
    have hbackslash : leadByte char ≠ Ascii.backslash :=
      mt (leadByte_eq_iff '\\' (by decide)).mp hescape
    change (probe (leadByte char :: Ascii.apostrophe :: more)).2 = more ∧
      startsNoLiteral (leadByte char :: Ascii.apostrophe :: more) = false
    constructor
    · simp only [probe, readBody, atEnd_cons, current_cons, advance_cons, hplain, hbackslash,
        Bool.false_eq_true, if_false, reduceCtorEq, if_true]
    · rw [startsNoLiteral, List.head?_cons, bne_self_eq_false, Bool.and_false]
  | escape chars hwellFormed hends =>
    have hsplit : reported (CharBody.text (.escape chars hwellFormed hends)) ++
        Ascii.apostrophe :: more = reported ('\\' :: chars ++ ['\x27']) ++ more := by
      rw [reported_append, List.append_assoc]
      rfl
    refine ⟨?_, rfl⟩
    rw [hsplit, probe_append hwellFormed, hends, List.nil_append]

end CharLiteral

/-! ### Quoted texts -/

/-- A quoted text: a tag, and a body that does not hold the closer with that tag. -/
structure QuotedLiteral where
  tag : List Char
  body : List Char
  belongsToTag_tag : ∀ char ∈ tag, belongsToTag char = true
  closer_free : ¬ ('|' :: tag ++ ['\x7d']) <:+: body

/-- The characters of a quoted text after its opening brace. -/
def QuotedLiteral.others (literal : QuotedLiteral) : List Char :=
  literal.tag ++ '|' :: literal.body ++ '|' :: literal.tag ++ ['\x7d']

namespace QuotedText

variable {tag : List UInt8}

/-- Assumes: a tag without bars. In front of a bar, either the text begins with the rest of a
closer, or the candidate is given up in front of the bar or before. -/
theorem matchCloser_append (htag : ∀ byte ∈ tag, isTagByte byte = true) (body more : List UInt8) :
    (∃ left, body = tag ++ Ascii.braceClose :: left) ∨
      ∃ left, left <:+ body ∧
        matchCloser tag (body ++ Ascii.bar :: more) = (false, left ++ Ascii.bar :: more) := by
  induction tag generalizing body with
  | nil =>
    cases body with
    | nil => exact .inr ⟨[], List.suffix_rfl, rfl⟩
    | cons byte body =>
      by_cases hbyte : byte = Ascii.braceClose
      · exact .inl ⟨body, by rw [hbyte]; rfl⟩
      · refine .inr ⟨byte :: body, List.suffix_rfl, ?_⟩
        exact if_neg hbyte
  | cons expected tag ih =>
    rw [List.forall_mem_cons] at htag
    cases body with
    | nil =>
      refine .inr ⟨[], List.suffix_rfl, ?_⟩
      have hbar : Ascii.bar ≠ expected := by
        rintro rfl
        exact absurd htag.1 (by decide)
      exact if_neg hbar
    | cons byte body =>
      by_cases hbyte : byte = expected
      · subst hbyte
        rcases ih htag.2 body with ⟨left, hleft⟩ | ⟨left, hsuffix, hmatch⟩
        · exact .inl ⟨left, by rw [hleft]; rfl⟩
        · refine .inr ⟨left, hsuffix.trans (List.suffix_cons byte body), ?_⟩
          rw [← hmatch]
          exact if_pos rfl
      · refine .inr ⟨byte :: body, List.suffix_rfl, ?_⟩
        exact if_neg hbyte

/-- The closer itself is matched. -/
theorem matchCloser_tag (tag more : List UInt8) :
    matchCloser tag (tag ++ Ascii.braceClose :: more) = (true, more) := by
  induction tag with
  | nil => rfl
  | cons byte tag ih =>
    rw [← ih]
    exact if_pos rfl

/-- Assumes: a tag without bars and a body that does not hold its closer. The search passes the body
and the closer after it. -/
theorem findCloser_append (htag : ∀ byte ∈ tag, isTagByte byte = true) {body : List UInt8}
    (hfree : ¬ (Ascii.bar :: tag ++ [Ascii.braceClose]) <:+: body) (more : List UInt8) :
    findCloser tag (body ++ Ascii.bar :: (tag ++ Ascii.braceClose :: more)) = (true, more) := by
  -- A candidate that fails leaves a suffix of the body, so the induction is on its length.
  induction hlength : body.length using Nat.strongRecOn generalizing body with
  | ind length ih =>
    subst hlength
    cases body with
    | nil =>
      rw [List.nil_append, findCloser]
      simp only [current_cons, atEnd_cons, advance_cons, Bool.false_eq_true, if_false, if_true,
        matchCloser_tag]
    | cons byte body =>
      rw [List.cons_append, findCloser]
      simp only [current_cons, atEnd_cons, advance_cons, Bool.false_eq_true, if_false]
      by_cases hbar : byte = Ascii.bar
      · subst hbar
        rcases matchCloser_append htag body (tag ++ Ascii.braceClose :: more) with
          ⟨left, hleft⟩ | ⟨left, hsuffix, hmatch⟩
        · refine absurd ?_ hfree
          rw [hleft]
          exact ⟨[], left, by simp⟩
        · simp only [hmatch, if_true, Bool.false_eq_true, if_false]
          refine ih left.length (Nat.lt_succ_of_le hsuffix.length_le) ?_ rfl
          intro hheld
          exact hfree (hheld.trans (hsuffix.isInfix.trans (List.suffix_cons _ body).isInfix))
      · simp only [hbar, if_false]
        refine ih body.length (Nat.lt_succ_self _) ?_ rfl
        intro hheld
        exact hfree (hheld.trans (List.suffix_cons byte body).isInfix)

/-- Assumes: a tag. Behind it and a bar an opening ends, and the tag is remembered. -/
theorem readOpening_append (htag : ∀ byte ∈ tag, isTagByte byte = true) (chars : List UInt8)
    (context : Context) :
    readOpening (tag ++ Ascii.bar :: chars) context =
      ⟨true, chars, { context with tag := tag }⟩ := by
  have htake : (tag ++ Ascii.bar :: chars).takeWhile isTagByte = tag := by
    rw [List.takeWhile_append_of_pos htag, List.takeWhile_cons_of_neg (by decide), List.append_nil]
  have hdrop : advanceWhile isTagByte (tag ++ Ascii.bar :: chars) = Ascii.bar :: chars := by
    refine (rest_advanceWhile isTagByte (tag ++ Ascii.bar :: chars)).trans ?_
    change (tag ++ Ascii.bar :: chars).dropWhile isTagByte = _
    rw [List.dropWhile_append_of_pos htag, List.dropWhile_cons_of_neg (by decide)]
  simp only [readOpening, takeWhile_eq, hdrop, current_cons, advance_cons, if_true]
  exact congrArg (fun taken ↦ Outcome.mk true chars { context with tag := taken }) htake

/-- A quoted text is passed up to its closing brace. -/
theorem read_text (literal : QuotedLiteral) (more : List UInt8) (context : Context) :
    (read (reported literal.others ++ more) context).matched = true ∧
      (read (reported literal.others ++ more) context).reader = more ∧
      ((reported literal.others ++ more).dropWhile isTagByte).head? = some Ascii.bar := by
  have htag : ∀ byte ∈ reported literal.tag, isTagByte byte = true := by
    intro byte hbyte
    obtain ⟨char, hchar, rfl⟩ := List.mem_map.mp hbyte
    rw [isTagByte_leadByte]
    exact literal.belongsToTag_tag char hchar
  have hfree : ¬ (Ascii.bar :: reported literal.tag ++ [Ascii.braceClose]) <:+:
      reported literal.body := by
    intro hheld
    obtain ⟨found, hfound, hreported⟩ := List.infix_map_iff.mp hheld
    have hcloser : reported found = reported ('|' :: literal.tag ++ ['\x7d']) := by
      rw [reported_append]
      exact hreported.symm
    have hsame : found = '|' :: literal.tag ++ ['\x7d'] := by
      refine (reported_eq_iff ?_).mp hcloser
      intro char hchar
      simp only [List.cons_append, List.mem_cons, List.mem_append, List.not_mem_nil, or_false]
        at hchar
      rcases hchar with rfl | htag | rfl
      · decide
      · exact toNat_lt_of_belongsToTag (literal.belongsToTag_tag char htag)
      · decide
    exact literal.closer_free (hsame ▸ hfound)
  have hsplit : reported literal.others ++ more =
      reported literal.tag ++ Ascii.bar :: (reported literal.body ++
        Ascii.bar :: (reported literal.tag ++ Ascii.braceClose :: more)) := by
    simp only [QuotedLiteral.others, reported_append, reported_cons, List.append_assoc,
      List.cons_append]
    rfl
  rw [hsplit, read, readOpening_append htag]
  simp only [if_true, readClosing, findCloser_append htag hfree]
  refine ⟨trivial, trivial, ?_⟩
  rw [List.dropWhile_append_of_pos htag, List.dropWhile_cons_of_neg (by decide), List.head?_cons]

end QuotedText

end GrammarFragments
