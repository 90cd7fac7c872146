import Mathlib.Tactic.SplitIfs
import GrammarFragments.Proofs.Spans.CodeEnds

/-!
Where the tokens of the kinds end, and what stands there (`Delimited`). A comment and a double quote
are tokens with their delimiters, so their tokens end where the scan ends. A type ends in front of
its `>`, which the scan does not pass; a payload and code end in front of a bracket or a brace that
the scan has passed.

That the star of `(*` is not the star of the `*)` is a matter of the characters that are counted:
those of a comment start behind `(*`, and the star and the parenthesis that end it are among them
(`closer_suffix_of_readComment`). A suffix of the characters from an offset lies at a later offset
(`Source.exists_offset_of_suffix`), and offsets between characters are told apart by the characters
behind them (`Source.IsBoundary.eq_of_charsFrom_eq`).

Main statement: `token_delimiters`, for a source that fits; `token_delimiters_wrap_around` is about
one that is cut inside of a character.
-/

set_option autoImplicit false
set_option relaxedAutoImplicit false

namespace GrammarFragments

open Reader

/-! ### Offsets by the characters behind them -/

namespace Source

variable {source : Source} {first last : Nat}

/-- A character that a walk comes to stands at an offset of the walk. -/
theorem exists_offset_of_suffix {byte : UInt8} {left : List UInt8}
    (hsuffix : byte :: left <:+ source.charsFrom first) :
    ∃ place, first ≤ place ∧ place < source.size ∧ source.byteAt place = byte ∧
      source.charsFrom (source.next place) = left := by
  fun_induction charsFrom source first with
  | case1 first hfirst ih =>
    rcases List.suffix_cons_iff.mp hsuffix with hhere | hlater
    · obtain ⟨hbyte, hleft⟩ := List.cons.inj hhere
      exact ⟨first, Nat.le_refl _, hfirst, hbyte.symm, hleft.symm⟩
    · obtain ⟨place, hle, hplace⟩ := ih hlater
      exact ⟨place, Nat.le_trans (Nat.le_of_lt (lt_next hfirst)) hle, hplace⟩
  | case2 first hend => exact absurd (List.suffix_nil.mp hsuffix) (List.cons_ne_nil _ _)

/-- In a text that fits, offsets between characters with the same characters behind them are the
same. -/
theorem IsBoundary.eq_of_charsFrom_eq (hfirst : source.IsBoundary first)
    (hlast : source.IsBoundary last) (hfits : source.Fits)
    (hsame : source.charsFrom first = source.charsFrom last) : first = last := by
  obtain ⟨index, front, back, htext, -, rfl⟩ := isBoundary_iff_exists_isCharIndex.mp hlast
  refine hfits.eq_encodedSize_of_length htext hfirst ?_
  rw [hsame, hfits.charsFrom_encodedSize htext, reported, List.length_map]

/-- The offset of two ASCII characters that a walk comes to in a text that fits. -/
theorem exists_offset_of_suffix_pair (hfits : source.Fits) {byte second : UInt8}
    {left : List UInt8} (hsuffix : byte :: second :: left <:+ source.charsFrom first)
    (hbyte : isAscii byte = true) (hsecond : isAscii second = true) (hzero : second ≠ 0) :
    ∃ place, first ≤ place ∧ source.byteAt place = byte ∧ source.byteAt (place + 1) = second ∧
      source.IsBoundary (place + 2) ∧ source.charsFrom (place + 2) = left := by
  obtain ⟨place, hle, hplace, rfl, hleft⟩ := exists_offset_of_suffix hsuffix
  rw [next_eq_succ_of_isAscii hplace hbyte] at hleft
  have hthere : source.byteAt (place + 1) = second := by
    rw [ByteReader.headD_charsFrom, hleft, List.headD_cons]
  have hlt := lt_size_of_byteAt_eq hthere hzero
  have hnext := next_eq_succ_of_isAscii hlt (hthere ▸ hsecond)
  refine ⟨place, hle, rfl, hthere, ?_, ?_⟩
  · have hboundary := (isBoundary_of_isAscii hlt (hthere ▸ hsecond)).next hfits
    rw [hnext] at hboundary
    exact hboundary
  · rw [← hnext, ByteReader.tail_charsFrom, hleft, List.tail_cons]

end Source

/-! ### Comments -/

/-- A unit that closes a comment starts with a star. -/
theorem eq_star_of_commentUnit {byte : UInt8} {chars left : List UInt8}
    (hunit : commentUnit byte chars = (.shallower, left)) : byte = Ascii.star := by
  rw [commentUnit] at hunit
  split_ifs at hunit with hopens hcloses hbrace
  · cases hunit
  · exact hcloses.1
  · cases hunit
  · cases hunit

/-- A comment that is found complete ends with a star and a parenthesis, which stand behind the star
with which it starts. -/
theorem closer_suffix_of_readComment {ρ : Type} [SeekReader ρ] {reader : ρ} {context : Context}
    (hmatched : (readComment reader context).matched = true) :
    Ascii.star :: Ascii.parenClose :: rest (readComment reader context).reader <:+
      rest (advance reader) := by
  rw [readComment] at hmatched ⊢
  split_ifs at hmatched ⊢ with hstar
  have hcount : commentCounter.run 1 (rest (advance reader)) =
      (true, rest (Nesting.enter .comment [] (advance reader) context).run.reader) :=
    (Enclosure.verdict_run_enter .comment (advance reader) context).symm.trans
      (Outcome.verdict_eq_iff.mpr ⟨hmatched, rfl⟩)
  obtain ⟨byte, others, hsuffix, hunit⟩ :=
    DepthCounter.exists_shallower_of_run Nat.one_ne_zero hcount
  rw [eq_star_of_commentUnit hunit, eq_cons_of_commentUnit hunit] at hsuffix
  exact hsuffix

/-! ### Tokens of all kinds -/

/-- How the token of a fragment lies to the place where the scan that has found it stops, and which
delimiters stand there. -/
def Delimited (source : Source) (token : ByteReader) : FragmentKind → Prop
  | .comment =>
    token.tokenEnd = token.offset ∧ token.tokenStart + 4 ≤ token.offset ∧
      (source.byteAt token.tokenStart = Ascii.parenOpen ∧
        source.byteAt (token.tokenStart + 1) = Ascii.star) ∧
      source.byteAt (token.offset - 2) = Ascii.star ∧
      source.byteAt (token.offset - 1) = Ascii.parenClose
  | .quoteMark =>
    token.tokenEnd = token.offset ∧ token.offset = token.tokenStart + 1 ∧
      source.byteAt token.tokenStart = Ascii.doubleQuote
  | .code =>
    token.tokenStart ≤ token.tokenEnd ∧
      (0 < token.offset ∧ source.byteAt (token.offset - 1) = Ascii.braceClose) ∧
      (token.tokenEnd = token.offset - 1 ∨ 1 < token.offset ∧ token.tokenEnd = token.offset - 2 ∧
        source.byteAt (token.offset - 2) = Ascii.percent)
  | .typeExpr =>
    token.tokenEnd = token.offset ∧ token.offset < source.size ∧
      source.byteAt token.offset = Ascii.greater
  | .payload =>
    token.tokenStart ≤ token.tokenEnd ∧
      (0 < token.offset ∧ source.byteAt (token.offset - 1) = Ascii.bracketClose) ∧
      token.tokenEnd = token.offset - 1

instance (source : Source) (token : ByteReader) :
    ∀ kind, Decidable (Delimited source token kind)
  | .comment => inferInstanceAs (Decidable (_ ∧ _))
  | .quoteMark => inferInstanceAs (Decidable (_ ∧ _))
  | .code => inferInstanceAs (Decidable (_ ∧ _))
  | .typeExpr => inferInstanceAs (Decidable (_ ∧ _))
  | .payload => inferInstanceAs (Decidable (_ ∧ _))

/-- A comment of three bytes would have one star for both of its delimiters. -/
example : ¬ Delimited ⟨"(*)"⟩ ⟨⟨"(*)"⟩, 3, 0, some 3, none⟩ .comment := by decide +kernel

section Tried

variable {reader : ByteReader} {context : Context}

theorem tokenEnd_of_committed {token : ByteReader} {stop : Nat}
    (hcommitted : token.committed = some stop) : token.tokenEnd = stop := by
  rw [ByteReader.tokenEnd, hcommitted, Option.getD_some]

/-- Assumes: a token that starts at `(*` in a text that fits, and a comment that is found complete
there. -/
theorem delimited_ofComment (hfits : reader.source.Fits) (hparen : current reader = Ascii.parenOpen)
    (hstar : current (advance reader) = Ascii.star)
    (hmatched : (readComment (advance reader) context).matched = true)
    (htoken : TokenAt reader.source reader.offset
      (Attempt.ofComment (advance reader) context).reader)
    (hboundary : reader.source.IsBoundary
      (Attempt.ofComment (advance reader) context).reader.offset) :
    Delimited reader.source (Attempt.ofComment (advance reader) context).reader .comment := by
  have hreader : (Attempt.ofComment (advance reader) context).reader =
      commit (readComment (advance reader) context).reader := by
    simp only [Attempt.ofComment, Attempt.ofOutcome, if_pos hmatched]
  have hfirst : (advance reader).offset = reader.offset + 1 :=
    ByteReader.offset_advance hparen rfl (by decide)
  have hsecond : (advance (advance reader)).offset = reader.offset + 2 := by
    rw [ByteReader.offset_advance hstar rfl (by decide), hfirst]
  have hsuffix := closer_suffix_of_readComment hmatched
  rw [← rest_commit, ← hreader, htoken.rest_eq] at hsuffix
  obtain ⟨place, hle, hcloser, hlast, hbehind, hleft⟩ :=
    Source.exists_offset_of_suffix_pair hfits hsuffix rfl rfl (by decide)
  have hoffset := hboundary.eq_of_charsFrom_eq hbehind hfits hleft.symm
  have hstart := htoken.tokenStart_eq
  rw [hsecond] at hle
  refine ⟨?_, ?_, ?_, ?_, ?_⟩
  · rw [hreader]
    rfl
  · omega
  · rw [hstart]
    exact ⟨hparen, hfirst ▸ hstar⟩
  · rw [hoffset]
    exact hcloser
  · rw [hoffset]
    exact hlast

/-- Assumes: an attempt, from inside of a text that fits, with nothing committed yet, that finds a
fragment. Its token, which starts where the reader stood, has its delimiters. -/
theorem delimited_of_tried {requested : Request} {attempt : Attempt ByteReader}
    {kind : FragmentKind} (hfits : reader.source.Fits)
    (htried : Attempt.Tried requested reader context attempt)
    (hkind : attempt.kind? = some kind) (hle : reader.offset ≤ reader.source.size)
    (hnone : reader.committed = none)
    (htoken : TokenAt reader.source reader.offset attempt.reader) :
    Delimited reader.source attempt.reader kind := by
  have hboundary := (aligned_of_tried hfits htried hkind hle hnone).offset_boundary
  have horder := htoken.start_le_tokenEnd
  have hsource := htoken.source_eq
  rw [hsource] at hboundary
  cases htried with
  | comment houtside hpermits hparen hstar =>
    obtain ⟨rfl, hmatched⟩ := Attempt.kind?_ofOutcome_eq_some hkind
    exact delimited_ofComment hfits hparen hstar hmatched htoken hboundary
  | code hentered hpermits =>
    obtain ⟨rfl, hmatched⟩ := Attempt.kind?_ofOutcome_eq_some hkind
    obtain ⟨hcloser, hcommitted⟩ := committed_run_enter rfl hmatched
    rw [← hsource]
    refine ⟨horder, hcloser, ?_⟩
    rcases hcommitted with hhere | ⟨-, hlt, hcommitted, hpercent⟩
    · exact .inl (tokenEnd_of_committed hhere)
    · exact .inr ⟨hlt, tokenEnd_of_committed hcommitted, hpercent⟩
  | typeExpr hentered hpermits =>
    obtain ⟨rfl, hmatched⟩ := Attempt.kind?_ofOutcome_eq_some hkind
    obtain ⟨stopped, hgreater, hreader⟩ := readType_eq_commit hmatched
    rw [← hsource, Attempt.ofOutcome, hreader]
    exact ⟨rfl, Source.lt_size_of_byteAt_eq hgreater (by decide), hgreater⟩
  | payload hentered hpermits =>
    obtain ⟨rfl, hmatched⟩ := Attempt.kind?_ofOutcome_eq_some hkind
    obtain ⟨hcloser, hcommitted⟩ := committed_run_enter rfl hmatched
    rw [← hsource]
    refine ⟨horder, hcloser, ?_⟩
    rcases hcommitted with hhere | ⟨hcode, -⟩
    · exact tokenEnd_of_committed hhere
    · cases hcode
  | quoteMark hpermits hquote =>
    cases hkind
    have hstart := htoken.tokenStart_eq
    refine ⟨rfl, ?_, ?_⟩
    · rw [hstart]
      exact ByteReader.offset_advance hquote rfl (by decide)
    · rw [hstart]
      exact hquote
  | nothing hentered => cases hkind

end Tried

/-- Assumes: a scan of a source that fits, from any offset, that finds a fragment. Every character
could be passed. A comment starts with `(*` and ends with `*)`, with no star in common, and the scan
stops where it ends. A double quote is a fragment by itself, and the scan stops behind it. A type
ends where the scan stops, in front of a `>`. A payload, which may be empty, ends in front of the
bracket that the scan has passed last, no matter whether a probe has passed it before. Code ends in
front of the brace that the scan has passed last, or of a percent sign right before it. -/
theorem token_delimiters {source : Source} (hfits : source.Fits) (offset : Nat)
    (requested : Request) (context : Context) (kind : FragmentKind)
    (hfound : (scan requested (source.readerAt offset) context).kind = some kind) :
    let token := (scan requested (source.readerAt offset) context).reader
    token.overflow = none ∧ Delimited source token kind := by
  intro token
  let first := source.afterBlanks (min offset source.size)
  have hskipped : skipWhile isBlank (source.readerAt offset) =
      ⟨source, first, first, none, none⟩ :=
    source.skipWhile_readerAt offset
  have hle : first ≤ source.size := Source.afterBlanks_le (Nat.min_le_right _ _)
  have htried : Attempt.Tried requested (ByteReader.mk source first first none none) context
      (.start requested (skipWhile isBlank (source.readerAt offset)) context) := by
    rw [← hskipped]
    exact Attempt.start_tried requested _ context
  exact ⟨hfits.overflow_scan offset requested context,
    delimited_of_tried hfits htried hfound hle rfl
      (tokenAt_scan source offset requested context)⟩

/-- The star of `(*)*)` does not end the comment that it starts. The bracket that closes a payload
is passed by a probe for a character literal and handed back, and the payload ends in front of it.
-/
theorem token_delimiters_witness :
    let comment := scan ⟨1⟩ ((Source.mk "é (*)*)").readerAt 2) .initial
    let payload := scan ⟨16⟩ ((Source.mk "x']").readerAt 0) .initial
    (Source.Fits ⟨"é (*)*)"⟩ ∧ Source.Fits ⟨"x']"⟩) ∧
      (comment.kind = some .comment ∧ Delimited ⟨"é (*)*)"⟩ comment.reader .comment ∧
        comment.reader.tokenStart = 3 ∧ comment.reader.offset = 8) ∧
      payload.kind = some .payload ∧ Delimited ⟨"x']"⟩ payload.reader .payload ∧
        payload.reader.tokenEnd = 2 := by
  intro comment payload
  have hfits : Source.Fits ⟨"é (*)*)"⟩ ∧ Source.Fits ⟨"x']"⟩ := by decide +kernel
  have hcomment : comment.kind = some .comment := by decide +kernel
  have hpayload : payload.kind = some .payload := by decide +kernel
  have hplace : comment.reader.tokenStart = 3 ∧ comment.reader.offset = 8 := by decide +kernel
  have hstop : payload.reader.tokenEnd = 2 := by decide +kernel
  exact ⟨hfits, ⟨hcomment, (token_delimiters hfits.1 2 ⟨1⟩ .initial .comment hcomment).2, hplace⟩,
    hpayload, (token_delimiters hfits.2 0 ⟨16⟩ .initial .payload hpayload).2, hstop⟩

/-- A payload that is scanned from an arrow of which only the first byte can be addressed comes upon
the width of the arrow, which adds up to one in 32 bits. From there the payload is found complete,
and the bracket in front of which its token ends stands in front of its start. -/
theorem token_delimiters_wrap_around :
    let source := Source.cutArrow ']'
    let reader := source.readerAt 4294967294
    let wrapped := readPayload { reader with offset := 1 } .initial
    source.IsBoundary 4294967294 ∧
      (scan ⟨16⟩ reader .initial).reader.overflow = some 4294967294 ∧
      (reader.offset + Source.leadWidth (current reader)) % UInt32.size = 1 ∧
      wrapped.matched = true ∧ wrapped.reader.tokenStart = 4294967294 ∧
      wrapped.reader.tokenEnd = 1 ∧ ¬ Delimited source wrapped.reader .payload := by
  intro source reader wrapped
  have hsize : Char.utf8Size ']' = 1 := rfl
  have hcloser : Source.leadByte ']' = Enclosure.closer .bracket := rfl
  obtain ⟨⟨hskipped, hsum⟩, hoverflow, hwrapped⟩ :=
    run_enter_cutArrow hsize rfl hcloser .initial
      (show reader = source.readerAt 4294967294 from rfl)
  have hfound : wrapped = ⟨true, ⟨source, 2, 4294967294, some 1, none⟩, .initial⟩ := hwrapped
  obtain ⟨back, htext⟩ := (Source.cutInside_cutArrow hsize).toList_eq
  have hboundary := Source.isBoundary_encodedSize htext
  rw [Source.encodedSize_front_cutArrow hsize] at hboundary
  rw [reader_scan_of_payload .initial hskipped, readPayload, hfound]
  refine ⟨hboundary, hoverflow, hsum, rfl, rfl, rfl, ?_⟩
  rintro ⟨hle, -⟩
  exact absurd hle (by decide)

end GrammarFragments
