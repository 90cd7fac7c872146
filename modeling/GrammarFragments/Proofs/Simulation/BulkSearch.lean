import GrammarFragments.Proofs.Nesting.Depth
import GrammarFragments.Reader.Bytes
import GrammarFragments.Reader.Stepwise

/-!
Whether a reader looks for the end of a string literal in bulk cannot be observed. The search over
the bytes of a source finds the first double quote or backslash among all of the bytes still to be
read, those inside of characters included (`find_eq_add_findIdx`, `byteAt_find`), and the walk from
character to character stops at the same place with the same bounds of the token.

A stepwise reader has nothing but the required operations of the reader behind it. Over a source
that fits, the two run in step through every lexeme, every recognizer and a whole scan
(`stepwise_simulation`). A simulation allows characters outside of ASCII to be reported by different
bytes; here they are reported by the same ones, so also the character that a probe hands back is the
same (`probe_stepwise`), and a quoted text closes alike with any bytes as its tag
(`readClosing_stepwise`).

Main statement: nothing tells the two searches apart, in any state of the reader over a source that
fits, and whatever is read with it (`bulkSearch_unobserved`). In a source that was cut inside of a
character the walk meets a character that it cannot pass, and the search does not.
-/

set_option autoImplicit false
set_option relaxedAutoImplicit false

namespace GrammarFragments

open Reader

/-! ### The search over bytes -/

namespace Source

variable {source : Source} {offset : Nat}

theorem drop_bytes_of_lt (hoffset : offset < source.size) :
    source.bytes.drop offset = source.byteAt offset :: source.bytes.drop (offset + 1) := by
  rw [List.drop_eq_getElem?_toList_append, getElem?_bytes_of_lt hoffset]
  rfl

theorem drop_bytes_of_le (hoffset : source.size ≤ offset) : source.bytes.drop offset = [] :=
  List.drop_eq_nil_of_le (source.length_bytes ▸ hoffset)

/-- A search moves on by the index of the first stop among the bytes still to be read. -/
theorem find_eq_add_findIdx (source : Source) (stop : UInt8 → Bool) (offset : Nat) :
    source.find stop offset = offset + (source.bytes.drop offset).findIdx stop := by
  fun_induction find source stop offset with
  | case1 offset hoffset hstop =>
    rw [drop_bytes_of_lt hoffset, List.findIdx_cons, hstop]
    rfl
  | case2 offset hoffset hstop ih =>
    have hpassed : stop (source.byteAt offset) = false := by simpa using hstop
    rw [ih, drop_bytes_of_lt hoffset, List.findIdx_cons, hpassed, cond_false]
    omega
  | case3 offset hoffset =>
    rw [drop_bytes_of_le (by omega)]
    rfl

/-- At the place that a search finds stands the first stop among the bytes still to be read, and
zero if there is none. -/
theorem byteAt_find (source : Source) (stop : UInt8 → Bool) (offset : Nat) :
    source.byteAt (source.find stop offset) =
      ((source.bytes.drop offset).find? stop).getD 0 := by
  fun_induction find source stop offset with
  | case1 offset hoffset hstop =>
    rw [drop_bytes_of_lt hoffset, List.find?_cons_of_pos hstop, Option.getD_some]
  | case2 offset hoffset hstop ih =>
    rw [ih, drop_bytes_of_lt hoffset, List.find?_cons_of_neg hstop]
  | case3 offset hoffset =>
    rw [drop_bytes_of_le (by omega), List.find?_nil, Option.getD_none, byteAt, dif_neg hoffset]

end Source

/-- Assumes: a reader in front of a character inside of which the text was cut, and which is no
string stop. Both searches end where what is held ends, but the walk comes upon that character. -/
theorem seek_of_cutInside (reader : ByteReader) {front : List Char} {char : Char}
    (hcut : Source.CutInside reader.source front char)
    (hoffset : reader.offset = Source.encodedSize front)
    (hplain : isStringStop (Source.leadByte char) = false) :
    reader.seekBytes = { reader with offset := reader.source.size } ∧
      seekStepwise reader = { reader with
        offset := reader.source.size
        overflow := reader.overflow.or (some reader.offset) } := by
  have hinside : atEnd reader = false := by
    rw [ByteReader.atEnd_eq_false_iff, hoffset]
    exact hcut.lt_size
  have haccept : (!isStringStop (current reader)) = true := by
    rw [ByteReader.current_eq_byteAt, hoffset, hcut.byteAt_eq, hplain, Bool.not_false]
  have hpassed := ByteReader.advance_of_cutInside hcut hoffset
  have hwalk : seekStepwise reader = advance reader := by
    have hend : atEnd (advance reader) = true := by
      rw [hpassed]
      exact ByteReader.atEnd_iff.mpr (Nat.le_refl _)
    rw [seekStepwise, advanceWhile, hinside, if_neg Bool.false_ne_true, if_pos haccept,
      advanceWhile, if_pos hend]
  rw [← ByteReader.seekStepwise_withOverflow, hwalk, hpassed]
  exact ⟨rfl, rfl⟩

/-- Of the last character of this text, which has two bytes, only the first can be addressed. In
front of it the search over bytes goes to the end of what is held, and the walk notes the
character. -/
theorem seek_cutLetter :
    let source : Source := ⟨String.ofList (List.replicate 4294967294 'a' ++ ['é'])⟩
    let reader := source.readerAt 4294967294
    Source.CutInside source (List.replicate 4294967294 'a') 'é' ∧
      reader.seekBytes = ⟨source, 4294967295, 4294967294, none, none⟩ ∧
      seekStepwise reader = ⟨source, 4294967295, 4294967294, none, some 4294967294⟩ := by
  intro source reader
  have hfront : Source.encodedSize (List.replicate 4294967294 'a') = 4294967294 :=
    Source.encodedSize_replicate 4294967294 'a'
  have hcut : Source.CutInside source (List.replicate 4294967294 'a') 'é' :=
    .of_encodedSize (by rw [hfront]; decide) (by rw [hfront]; decide)
  have hsize : source.size = 4294967295 := hcut.size_eq
  have hreader : reader = ⟨source, 4294967294, 4294967294, none, none⟩ :=
    Source.readerAt_of_le (by rw [hsize]; decide)
  obtain ⟨hbytes, hwalk⟩ :=
    seek_of_cutInside ⟨source, 4294967294, 4294967294, none, none⟩ hcut hfront.symm rfl
  rw [hreader, hbytes, hwalk, hsize]
  exact ⟨hcut, rfl, rfl⟩

/-! ### A stepwise reader and the reader behind it -/

section Stepwise

/-- The reader is the one behind the stepwise reader, over a source that fits. -/
structure IsBehind (reader : ByteReader) (stepwise : Stepwise ByteReader) : Prop where
  reader_eq : stepwise.reader = reader
  fits : reader.source.Fits

/-- A stepwise reader and the reader behind it are not told apart. -/
theorem stepwise_readerSimulation : ReaderSimulation IsBehind where
  current_alike := by
    rintro _ stepwise ⟨rfl, -⟩ -
    exact Alike.refl _
  atEnd_eq := by
    rintro _ stepwise ⟨rfl, -⟩ -
    rfl
  advance_related := by
    rintro _ stepwise ⟨rfl, hfits⟩
    exact ⟨rfl, hfits⟩
  commit_related := by
    rintro _ stepwise ⟨rfl, hfits⟩
    exact ⟨rfl, hfits⟩

/-- A stepwise reader and the reader behind it simulate each other in the same context. -/
theorem stepwise_simulation : ScanSimulation IsBehind Eq where
  toSeekSimulation := stepwise_readerSimulation.seekSimulation fun hbehind ↦
    ⟨ByteReader.seekBytes_eq_seekStepwise hbehind.fits, rfl⟩
  clearTag_akin hsame := congrArg Context.clearTag hsame
  inString_eq hsame := congrArg Context.inString hsame
  toggle_akin := by
    rintro context other rfl
    rfl

theorem skipWhile_stepwise {accept : UInt8 → Bool} (haccept : AsciiOnly accept)
    {reader : ByteReader} (hfits : reader.source.Fits) :
    IsBehind (skipWhile accept reader) (skipWhile accept (Stepwise.mk reader)) := by
  refine skipWhile_related IsBehind haccept
    (fun hbehind ↦ stepwise_simulation.current_alike hbehind)
    (fun hbehind ↦ stepwise_simulation.atEnd_eq hbehind) ?_ ⟨rfl, hfits⟩
  rintro _ stepwise ⟨rfl, hhere⟩ hend
  exact ⟨rfl, hhere⟩

/-- A probe hands back the character in front of it, or nothing. -/
theorem pending_probe {ρ : Type} [SeekReader ρ] (reader : ρ) :
    (CharLiteral.probe reader).1.pending =
      if startsNoLiteral (rest reader) then some (current reader) else none := by
  cases hstarts : startsNoLiteral (rest reader) with
  | true =>
    rw [probe_of_startsNoLiteral hstarts]
    rfl
  | false =>
    rw [pending_probe_eq_none hstarts]
    rfl

/-- Literals that are alike are the same if the bytes handed back are the same. -/
theorem LiteralsAlike.eq_of_pending_eq {literal other : CharLiteral}
    (halike : LiteralsAlike literal other) (hpending : literal.pending = other.pending) :
    literal = other := by
  obtain ⟨hclosed, hformed, hvalue, -⟩ := halike
  cases literal
  cases other
  rw [CharLiteral.mk.injEq]
  exact ⟨hclosed, hformed, hvalue, hpending⟩

/-- A probe finds the same literal, and hands back the same byte. -/
theorem probe_stepwise {reader : ByteReader} (hfits : reader.source.Fits) :
    (CharLiteral.probe reader).1 = (CharLiteral.probe (Stepwise.mk reader)).1 ∧
      IsBehind (CharLiteral.probe reader).2 (CharLiteral.probe (Stepwise.mk reader)).2 := by
  have hbehind : IsBehind reader (Stepwise.mk reader) := ⟨rfl, hfits⟩
  obtain ⟨halike, hstopped⟩ := stepwise_simulation.probe_related hbehind
  have hpending : (CharLiteral.probe reader).1.pending =
      (CharLiteral.probe (Stepwise.mk reader)).1.pending := by
    rw [pending_probe, pending_probe, Stepwise.rest_mk, Stepwise.current_mk]
  exact ⟨halike.eq_of_pending_eq hpending, hstopped⟩

/-- The body and the closer of a quoted text are read alike, with any bytes as the tag. -/
theorem readClosing_stepwise {reader : ByteReader} (hfits : reader.source.Fits)
    (context : Context) :
    OutcomesRelated IsBehind Eq (QuotedText.readClosing reader context)
      (QuotedText.readClosing (Stepwise.mk reader) context) := by
  refine stepwise_simulation.readClosing_related ?_ ⟨rfl, hfits⟩ context
  intro reader stepwise hbehind
  exact congrArg current hbehind.reader_eq.symm

end Stepwise

/-- Assumes: a reader over a source that fits, in any state. The search over bytes ends in the very
state of the walk from character to character: it has moved on by the index of the first double
quote or backslash among the bytes still to be read, and both show that byte, or zero if there is
none. So a stepwise reader, which has no other search than the walk, gives the same as the reader
itself: a string literal, a character literal, a quoted text and its halves, a comment, code, a
type, a payload and a whole scan end with the same result and context and with the same offset and
bounds of the token. -/
theorem bulkSearch_unobserved {reader : ByteReader} (hfits : reader.source.Fits)
    (context : Context) (requested : Request) :
    let unread := reader.source.bytes.drop reader.offset
    let stepwise : Stepwise ByteReader := ⟨reader⟩
    let agree := OutcomesRelated IsBehind Eq
    (reader.seekBytes = seekStepwise reader ∧
        reader.seekBytes.offset = reader.offset + unread.findIdx isStringStop ∧
        current reader.seekBytes = (unread.find? isStringStop).getD 0 ∧
        current (seekStepwise reader) = (unread.find? isStringStop).getD 0) ∧
      IsBehind (StringLiteral.finish reader) (StringLiteral.finish stepwise) ∧
      ((CharLiteral.probe reader).1 = (CharLiteral.probe stepwise).1 ∧
        IsBehind (CharLiteral.probe reader).2 (CharLiteral.probe stepwise).2) ∧
      agree (QuotedText.readOpening reader context) (QuotedText.readOpening stepwise context) ∧
      agree (QuotedText.readClosing reader context) (QuotedText.readClosing stepwise context) ∧
      agree (QuotedText.read reader context) (QuotedText.read stepwise context) ∧
      agree (readComment reader context) (readComment stepwise context) ∧
      agree (readCode reader context) (readCode stepwise context) ∧
      agree (readType reader context) (readType stepwise context) ∧
      agree (readPayload reader context) (readPayload stepwise context) ∧
      ScansRelated IsBehind Eq (scan requested reader context)
        (scan requested stepwise context) := by
  intro unread stepwise agree
  have hsim := stepwise_simulation
  have hbehind : IsBehind reader stepwise := ⟨rfl, hfits⟩
  have hseek := ByteReader.seekBytes_eq_seekStepwise hfits
  have hoffset := reader.source.find_eq_add_findIdx isStringStop reader.offset
  have hbyte : current reader.seekBytes = (unread.find? isStringStop).getD 0 :=
    reader.source.byteAt_find isStringStop reader.offset
  have hskipped := skipWhile_stepwise asciiOnly_isBlank hfits
  exact ⟨⟨hseek, hoffset, hbyte, hseek ▸ hbyte⟩, hsim.finish_related hbehind,
    probe_stepwise hfits, hsim.readOpening_related hbehind context,
    readClosing_stepwise hfits context, hsim.quotedText_related hbehind rfl,
    hsim.readComment_related hbehind rfl, hsim.readCode_related hbehind rfl,
    hsim.readType_related hbehind rfl, hsim.readPayload_related hbehind rfl,
    hsim.scan_related requested hskipped rfl⟩

/-- From the second byte of a character both searches pass an escaped quote in the same way. -/
theorem bulkSearch_unobserved_witness :
    let source : Source := ⟨"é\\\"é\""⟩
    let reader := source.readerAt 1
    source.Fits ∧ reader.seekBytes = seekStepwise reader ∧ reader.seekBytes.offset = 2 ∧
      (StringLiteral.finish (Stepwise.mk reader)).reader = StringLiteral.finish reader ∧
      (StringLiteral.finish reader).offset = 7 := by
  intro source reader
  have hfits : reader.source.Fits := by decide +kernel
  obtain ⟨⟨hseek, hoffset, -⟩, hfinish, -⟩ := bulkSearch_unobserved hfits .initial .empty
  refine ⟨hfits, hseek, ?_, hfinish.reader_eq, by decide +kernel⟩
  rw [hoffset]
  decide +kernel

/-- In front of a character of two bytes of which only the first can be addressed, the walk adds up
to zero in 32 bits, and the search over bytes ends where what is held ends. -/
theorem bulkSearch_noticed_at_cut :
    let source : Source := ⟨String.ofList (List.replicate 4294967294 'a' ++ ['é'])⟩
    let reader := source.readerAt 4294967294
    reader.seekBytes = ⟨source, 4294967295, 4294967294, none, none⟩ ∧
      (seekStepwise reader).overflow = some 4294967294 ∧
      (4294967294 + Source.leadWidth (current reader)) % UInt32.size = 0 ∧
      reader.seekBytes ≠ seekStepwise reader := by
  intro source reader
  obtain ⟨hcut, hbytes, hwalk⟩ := seek_cutLetter
  have hfront : Source.encodedSize (List.replicate 4294967294 'a') = 4294967294 :=
    Source.encodedSize_replicate 4294967294 'a'
  have hcurrent : current reader = Source.leadByte 'é' := by
    have hoffset : reader.offset = 4294967294 := by
      change min 4294967294 source.size = 4294967294
      rw [hcut.size_eq]
      decide
    rw [ByteReader.current_eq_byteAt, hoffset, ← hfront]
    exact hcut.byteAt_eq
  refine ⟨hbytes, congrArg ByteReader.overflow hwalk, ?_, ?_⟩
  · rw [hcurrent]
    decide
  · intro hsame
    have hnone : none = some 4294967294 :=
      congrArg ByteReader.overflow (hbytes.symm.trans (hsame.trans hwalk))
    cases hnone

end GrammarFragments
