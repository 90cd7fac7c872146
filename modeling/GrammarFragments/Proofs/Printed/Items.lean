import GrammarFragments.Proofs.Printed.Lexemes

/-!
What a group holds, as it is written. The items of a group are lexemes, single characters, quoted
texts and groups inside of it, to any depth; each is written after a space. The depth counter of the
group passes the items of a group of its kind and comes back to the depth it had before, whatever
comes after them (`run_text`). The induction is on the items: a group of the same kind is counted
from one level deeper, and a comment in another group is one unit, which its own depth counter
passes.

So a group that is entered in front of written items and their closing delimiter is found complete
(`verdict_run_enter_closed`).
-/

set_option autoImplicit false
set_option relaxedAutoImplicit false

namespace GrammarFragments

open Reader Source

/-! ### Written items -/

/-- The lexemes that every group may hold. -/
inductive Lexeme
  | word (written : Word)
  | string (pieces : List StringPiece)
  | char (body : CharBody)

namespace Lexeme

/-- The character by which a lexeme is known. -/
def first : Lexeme → Char
  | word written => written.first
  | string _ => '\x22'
  | char _ => '\x27'

/-- The characters after the first one. -/
def others : Lexeme → List Char
  | word written => written.others
  | string pieces => pieces.flatMap StringPiece.text ++ ['\x22']
  | char body => body.text ++ ['\x27']

end Lexeme

namespace Enclosure

/-- The delimiter that opens a group. -/
def opening : Enclosure → List Char
  | comment => ['(', '*']
  | code => ['\x7b']
  | bracket => ['[']

/-- The delimiter that closes a group. -/
def closing : Enclosure → List Char
  | comment => ['*', ')']
  | code => ['\x7d']
  | bracket => [']']

/-- The characters that do not stand for themselves in a group, apart from those that start a
lexeme. -/
def reserved : Enclosure → List Char
  | comment => ['\x7b']
  | code => ['\x7b', '\x7d']
  | bracket => ['[', ']']

/-- The character stands for itself in a group if a blank comes after it. -/
structure AdmitsSingle (group : Enclosure) (char : Char) : Prop where
  ne_apostrophe : char ≠ '\x27'
  ne_doubleQuote : char ≠ '\x22'
  startsWord_eq : startsWord char = false
  not_mem_reserved : char ∉ group.reserved

end Enclosure

/-- The items of a group, in order. A comment may stand in every group, and every other group in a
group of its own kind; quoted texts are known to comments and code only. -/
inductive Items : Enclosure → Type
  | nil {group : Enclosure} : Items group
  | lexeme {group : Enclosure} (written : Lexeme) (more : Items group) : Items group
  | single {group : Enclosure} (char : Char) (hsingle : group.AdmitsSingle char)
    (more : Items group) : Items group
  | quoted {group : Enclosure} (literal : QuotedLiteral) (hgroup : group ≠ .bracket)
    (more : Items group) : Items group
  | nested {group inner : Enclosure} (hinner : inner = .comment ∨ inner = group)
    (body : Items inner) (more : Items group) : Items group

namespace Items

/-- The items as they are written, each after a space. -/
def text : {group : Enclosure} → Items group → List Char
  | _, nil => []
  | _, lexeme written more => ' ' :: written.first :: (written.others ++ more.text)
  | _, single char _ more => ' ' :: char :: more.text
  | _, quoted literal _ more => ' ' :: '\x7b' :: (literal.others ++ more.text)
  | _, @nested _ inner _ body more =>
    ' ' :: (inner.opening ++ (body.text ++ ' ' :: (inner.closing ++ more.text)))

/-- A group with the given items, from its opening delimiter to its closing one. -/
def enclosed {group : Enclosure} (items : Items group) : List Char :=
  group.opening ++ (items.text ++ ' ' :: group.closing)

/-- In front of a space, the items begin with a space. -/
theorem head?_text {group : Enclosure} (items : Items group) (chars : List UInt8) :
    (reported items.text ++ 0x20 :: chars).head? = some 0x20 := by
  cases items with
  | nil | lexeme written more | single char hsingle more | quoted literal hgroup more
  | nested hinner body more => rfl

end Items

namespace Lexeme

theorem leadByte_first (lexeme : Lexeme) :
    leadByte lexeme.first = Ascii.doubleQuote ∨ leadByte lexeme.first = Ascii.apostrophe ∨
      isWordStart (leadByte lexeme.first) = true := by
  cases lexeme with
  | word written => exact .inr (.inr ((isWordStart_leadByte _).trans written.startsWord_first))
  | string pieces => exact .inl rfl
  | char body => exact .inr (.inl rfl)

/-- In front of a blank, a lexeme is passed up to its last character. -/
theorem passLexeme_others (lexeme : Lexeme) {chars : List UInt8}
    (hblank : chars.head? = some 0x20) :
    passLexeme (leadByte lexeme.first) (reported lexeme.others ++ chars) = chars := by
  obtain ⟨left, rfl⟩ := List.head?_eq_some_iff.mp hblank
  cases lexeme with
  | word written =>
    have hword : isWordStart (leadByte written.first) = true :=
      (isWordStart_leadByte _).trans written.startsWord_first
    have hne : ∀ other : UInt8, isWordStart other = false → leadByte written.first ≠ other := by
      rintro other hother rfl
      rw [hother] at hword
      cases hword
    show passLexeme (leadByte written.first) _ = _
    rw [passLexeme, if_neg (hne Ascii.doubleQuote rfl), if_neg (hne Ascii.apostrophe rfl),
      if_pos hword]
    exact written.dropWhile_others left
  | string pieces =>
    show StringLiteral.finish (reported (pieces.flatMap StringPiece.text ++ ['\x22']) ++ _) = _
    rw [reported_append, List.append_assoc]
    exact StringLiteral.finish_text pieces (0x20 :: left)
  | char body =>
    obtain ⟨hprobe, hstarts⟩ := CharLiteral.probe_text body (0x20 :: left)
    show (if startsNoLiteral (reported (body.text ++ ['\x27']) ++ _) then _
      else (CharLiteral.probe (reported (body.text ++ ['\x27']) ++ _)).2) = _
    rw [reported_append, List.append_assoc]
    exact (if_neg (Bool.eq_false_iff.mp hstarts)).trans hprobe

end Lexeme

/-! ### Units of a written group -/

namespace Enclosure

variable (group : Enclosure) (depth : Nat)

/-- Assumes: a character that opens and closes nothing in the group. It starts a lexeme. -/
theorem unit_eq_passLexeme {byte : UInt8} {chars : List UInt8}
    (hopens : ¬ (byte = Ascii.parenOpen ∧ chars.head? = some Ascii.star))
    (hcloses : ¬ (byte = Ascii.star ∧ chars.head? = some Ascii.parenClose))
    (hreserved : byte ∉ reported group.reserved) :
    group.counter.unit byte chars = (.level, passLexeme byte chars) := by
  cases group with
  | comment =>
    have hbrace : byte ≠ Ascii.braceOpen := List.ne_of_not_mem_cons hreserved
    show commentUnit byte chars = _
    rw [commentUnit, if_neg hopens, if_neg hcloses, if_neg hbrace]
  | code =>
    have hbrace : byte ≠ Ascii.braceOpen := List.ne_of_not_mem_cons hreserved
    have hclose : byte ≠ Ascii.braceClose :=
      List.ne_of_not_mem_cons (List.not_mem_of_not_mem_cons hreserved)
    show codeUnit byte chars = _
    rw [codeUnit, if_neg hopens, if_neg hbrace, if_neg hclose]
  | bracket =>
    have hbracket : byte ≠ Ascii.bracketOpen := List.ne_of_not_mem_cons hreserved
    have hclose : byte ≠ Ascii.bracketClose :=
      List.ne_of_not_mem_cons (List.not_mem_of_not_mem_cons hreserved)
    show payloadUnit byte chars = _
    rw [payloadUnit, if_neg hopens, if_neg hbracket, if_neg hclose]

theorem run_space (chars : List UInt8) :
    group.counter.run (depth + 1) (0x20 :: chars) = group.counter.run (depth + 1) chars := by
  have hunit : group.counter.unit 0x20 chars = (.level, chars) := by
    cases group with
    | comment => rfl
    | code => rfl
    | bracket => rfl
  rw [DepthCounter.run, hunit]
  rfl

/-- Assumes: a character that opens and closes nothing in the group, and a lexeme that starts with
it. The count goes on after the lexeme. -/
theorem run_of_passLexeme {byte : UInt8} {chars left : List UInt8}
    (hopens : ¬ (byte = Ascii.parenOpen ∧ chars.head? = some Ascii.star))
    (hcloses : ¬ (byte = Ascii.star ∧ chars.head? = some Ascii.parenClose))
    (hreserved : byte ∉ reported group.reserved) (hpass : passLexeme byte chars = left) :
    group.counter.run (depth + 1) (byte :: chars) = group.counter.run (depth + 1) left := by
  rw [DepthCounter.run, group.unit_eq_passLexeme hopens hcloses hreserved, hpass]
  rfl

/-- In front of a blank, a group is opened by its opening delimiter. -/
theorem run_opening {chars : List UInt8} (hblank : chars.head? = some 0x20) :
    group.counter.run (depth + 1) (reported group.opening ++ chars) =
      group.counter.run (depth + 2) chars := by
  obtain ⟨left, rfl⟩ := List.head?_eq_some_iff.mp hblank
  cases group with
  | comment =>
    change commentCounter.run (depth + 1) (Ascii.parenOpen :: Ascii.star :: 0x20 :: left) = _
    rw [DepthCounter.run]
    rfl
  | code =>
    change codeCounter.run (depth + 1) (Ascii.braceOpen :: 0x20 :: left) = _
    rw [DepthCounter.run]
    rfl
  | bracket =>
    change payloadCounter.run (depth + 1) (Ascii.bracketOpen :: 0x20 :: left) = _
    rw [DepthCounter.run]
    rfl

/-- After a space, a group is closed by its closing delimiter. -/
theorem run_closing (chars : List UInt8) :
    group.counter.run (depth + 1) (0x20 :: (reported group.closing ++ chars)) =
      group.counter.run depth chars := by
  rw [run_space]
  cases group with
  | comment =>
    change commentCounter.run (depth + 1) (Ascii.star :: Ascii.parenClose :: chars) = _
    rw [DepthCounter.run]
    rfl
  | code =>
    change codeCounter.run (depth + 1) (Ascii.braceClose :: chars) = _
    rw [DepthCounter.run]
    rfl
  | bracket =>
    change payloadCounter.run (depth + 1) (Ascii.bracketClose :: chars) = _
    rw [DepthCounter.run]
    rfl

/-- From depth one the closing delimiter ends the count. -/
theorem run_closing_one (chars : List UInt8) :
    group.counter.run 1 (reported group.closing ++ chars) = (true, chars) := by
  rw [← group.run_space 0, group.run_closing, DepthCounter.run]

/-- The bytes by which lexemes are known open and close nothing in any group. -/
theorem not_delimiter {byte : UInt8}
    (hstarts : byte = Ascii.doubleQuote ∨ byte = Ascii.apostrophe ∨ isWordStart byte = true) :
    byte ≠ Ascii.parenOpen ∧ byte ≠ Ascii.star ∧ byte ∉ reported group.reserved := by
  have hne : ∀ other : UInt8, other ≠ Ascii.doubleQuote → other ≠ Ascii.apostrophe →
      isWordStart other = false → byte ≠ other := by
    rintro other hquote hapostrophe hword rfl
    rcases hstarts with hstarts | hstarts | hstarts
    · exact hquote hstarts
    · exact hapostrophe hstarts
    · rw [hword] at hstarts
      cases hstarts
  refine ⟨hne _ (by decide) (by decide) rfl, hne _ (by decide) (by decide) rfl, ?_⟩
  intro hmem
  have hreserved : (reported group.reserved).all (fun other ↦ other != Ascii.doubleQuote &&
      other != Ascii.apostrophe && !isWordStart other) = true := by
    cases group with
    | comment => rfl
    | code => rfl
    | bracket => rfl
  have hother := List.all_eq_true.mp hreserved byte hmem
  simp only [Bool.and_eq_true, bne_iff_ne, Bool.not_eq_true'] at hother
  exact hne byte hother.1.1 hother.1.2 hother.2 rfl

/-- In front of a blank, a lexeme is passed and the depth stays. -/
theorem run_lexeme (lexeme : Lexeme) {chars : List UInt8} (hblank : chars.head? = some 0x20) :
    group.counter.run (depth + 1) (leadByte lexeme.first :: (reported lexeme.others ++ chars)) =
      group.counter.run (depth + 1) chars := by
  have hpass := lexeme.passLexeme_others hblank
  obtain ⟨hparen, hstar, hreserved⟩ := group.not_delimiter lexeme.leadByte_first
  exact group.run_of_passLexeme depth (fun hopens ↦ hparen hopens.1)
    (fun hcloses ↦ hstar hcloses.1) hreserved hpass

theorem toNat_lt_of_mem_reserved {group : Enclosure} {char : Char} (hmem : char ∈ group.reserved) :
    char.toNat < 0x80 := by
  have hascii : group.reserved.all (fun char ↦ decide (char.toNat < 0x80)) = true := by
    cases group with
    | comment => rfl
    | code => rfl
    | bracket => rfl
  exact of_decide_eq_true (List.all_eq_true.mp hascii char hmem)

/-- In front of a blank, a character that stands for itself is passed and the depth stays. -/
theorem run_single {char : Char} (hsingle : group.AdmitsSingle char) {chars : List UInt8}
    (hblank : chars.head? = some 0x20) :
    group.counter.run (depth + 1) (leadByte char :: chars) =
      group.counter.run (depth + 1) chars := by
  have hnext : ∀ {byte : UInt8}, byte ≠ 0x20 → chars.head? ≠ some byte := by
    intro byte hbyte hhead
    rw [hblank, Option.some.injEq] at hhead
    exact hbyte hhead.symm
  have hquote : leadByte char ≠ Ascii.doubleQuote :=
    mt (leadByte_eq_iff '\x22' (by decide)).mp hsingle.ne_doubleQuote
  have hapostrophe : leadByte char ≠ Ascii.apostrophe :=
    mt (leadByte_eq_iff '\x27' (by decide)).mp hsingle.ne_apostrophe
  have hreserved : leadByte char ∉ reported group.reserved := by
    intro hmem
    obtain ⟨other, hother, hsame⟩ := List.mem_map.mp hmem
    rw [eq_comm, leadByte_eq_iff other (toNat_lt_of_mem_reserved hother)] at hsame
    exact hsingle.not_mem_reserved (hsame ▸ hother)
  have hpass : passLexeme (leadByte char) chars = chars := by
    rw [passLexeme, if_neg hquote, if_neg hapostrophe, isWordStart_leadByte,
      hsingle.startsWord_eq, if_neg Bool.false_ne_true]
  exact group.run_of_passLexeme depth (fun hopens ↦ hnext (by decide) hopens.2)
    (fun hcloses ↦ hnext (by decide) hcloses.2) hreserved hpass

/-- A quoted text is passed and the depth stays, in every group that knows quoted texts. -/
theorem run_quoted (literal : QuotedLiteral) (hgroup : group ≠ .bracket) (chars : List UInt8) :
    group.counter.run (depth + 1) (Ascii.braceOpen :: (reported literal.others ++ chars)) =
      group.counter.run (depth + 1) chars := by
  obtain ⟨-, hreader, hbar⟩ := QuotedText.read_text literal chars .initial
  have hunit : group.counter.unit Ascii.braceOpen (reported literal.others ++ chars) =
      (.level, chars) := by
    cases group with
    | comment => exact congrArg (Prod.mk DepthChange.level) hreader
    | code =>
      show codeUnit Ascii.braceOpen (reported literal.others ++ chars) = _
      rw [codeUnit, if_neg (fun hopens ↦ absurd hopens.1 (by decide)), if_pos rfl, if_pos hbar,
        hreader]
    | bracket => exact absurd rfl hgroup
  rw [DepthCounter.run, hunit]
  rfl

/-- Assumes: a comment that its own depth counter passes. It is one unit of every group of another
kind. -/
theorem run_comment (hgroup : group ≠ .comment) {chars left : List UInt8}
    (hcomment : commentCounter.run 1 chars = (true, left)) :
    group.counter.run (depth + 1) (reported comment.opening ++ chars) =
      group.counter.run (depth + 1) left := by
  have hverdict := comment.verdict_run_enter (rest chars) .initial
  have hreader : (readComment (Ascii.star :: chars) .initial).reader = left :=
    (Outcome.verdict_eq_iff.mp (hverdict.trans hcomment)).2
  have hunit : group.counter.unit Ascii.parenOpen (Ascii.star :: chars) = (.level, left) := by
    cases group with
    | comment => exact absurd rfl hgroup
    | code => exact congrArg (Prod.mk DepthChange.level) hreader
    | bracket => exact congrArg (Prod.mk DepthChange.level) hreader
  change group.counter.run (depth + 1) (Ascii.parenOpen :: Ascii.star :: chars) = _
  rw [DepthCounter.run, hunit]
  rfl

end Enclosure

namespace Items

/-- The items of a group leave the depth of its counter as it was, whatever comes after them. -/
theorem run_text {group : Enclosure} (items : Items group) (depth : Nat) (chars : List UInt8) :
    group.counter.run (depth + 1) (reported items.text ++ 0x20 :: chars) =
      group.counter.run (depth + 1) (0x20 :: chars) := by
  induction items generalizing depth chars with
  | nil => rfl
  | @lexeme group written more ih =>
    have hsplit : reported (lexeme written more).text ++ 0x20 :: chars =
        0x20 :: leadByte written.first ::
          (reported written.others ++ (reported more.text ++ 0x20 :: chars)) := by
      rw [text, reported_cons, reported_cons, reported_append, ← List.append_assoc]
      rfl
    rw [hsplit, group.run_space, group.run_lexeme depth written (more.head?_text chars), ih]
  | @single group char hsingle more ih =>
    have hsplit : reported (single char hsingle more).text ++ 0x20 :: chars =
        0x20 :: leadByte char :: (reported more.text ++ 0x20 :: chars) := rfl
    rw [hsplit, group.run_space, group.run_single depth hsingle (more.head?_text chars), ih]
  | @quoted group literal hgroup more ih =>
    have hsplit : reported (quoted literal hgroup more).text ++ 0x20 :: chars =
        0x20 :: Ascii.braceOpen ::
          (reported literal.others ++ (reported more.text ++ 0x20 :: chars)) := by
      rw [text, reported_cons, reported_cons, reported_append, ← List.append_assoc]
      rfl
    rw [hsplit, group.run_space, group.run_quoted depth literal hgroup, ih]
  | @nested group inner hinner body more ihBody ihMore =>
    -- What the body and its closing delimiter come down to, from any depth.
    have hbody : ∀ depth : Nat, inner.counter.run (depth + 1) (reported body.text ++ 0x20 ::
        (reported inner.closing ++ (reported more.text ++ 0x20 :: chars))) =
          inner.counter.run depth (reported more.text ++ 0x20 :: chars) := by
      intro depth
      rw [ihBody, inner.run_closing]
    have hsplit : reported (nested hinner body more).text ++ 0x20 :: chars =
        0x20 :: (reported inner.opening ++ (reported body.text ++ 0x20 ::
          (reported inner.closing ++ (reported more.text ++ 0x20 :: chars)))) := by
      simp only [text, reported_cons, reported_append, List.append_assoc, List.cons_append]
      rfl
    rw [hsplit, group.run_space]
    by_cases hsame : inner = group
    · subst hsame
      rw [inner.run_opening depth (body.head?_text _), hbody, ihMore]
    · obtain rfl := hinner.resolve_right hsame
      have hcomment := hbody 0
      rw [DepthCounter.run] at hcomment
      rw [group.run_comment depth (Ne.symm hsame) hcomment, ihMore]

/-- A group that is entered in front of its items and a space is followed from that space on. -/
theorem verdict_run_enter_text {ρ : Type} [SeekReader ρ] {group : Enclosure} (items : Items group)
    {reader : ρ} (context : Context) {chars : List UInt8}
    (hrest : rest reader = reported items.text ++ 0x20 :: chars) :
    (Nesting.enter group [] reader context).run.verdict = group.counter.run 1 chars := by
  rw [group.verdict_run_enter, hrest, items.run_text 0, group.run_space]

/-- Assumes: a reader in front of the items of a group and its closing delimiter. The group that is
entered there is found complete, and what comes after the delimiter is left. -/
theorem verdict_run_enter_closed {ρ : Type} [SeekReader ρ] {group : Enclosure}
    (items : Items group) {reader : ρ} (context : Context) {chars : List UInt8}
    (hrest : rest reader = reported items.text ++ 0x20 :: (reported group.closing ++ chars)) :
    (Nesting.enter group [] reader context).run.verdict = (true, chars) := by
  rw [items.verdict_run_enter_text context hrest, group.run_closing_one]

end Items

end GrammarFragments
