import GrammarFragments.Reader.Basic
import GrammarFragments.Source.Places

/-!
The reader over a source. It stands at a byte offset and keeps the bounds of the token under
construction: where it starts, and the last end that was committed. A copy of a byte reader is a
complete saved position.

A walk from character to character may come upon a character whose width overflows. A checked
program ends there. The reader notes the offset and goes on as if the sum had been cut down to the
end, so its results count only as long as there is no such note.

Main statements: looking for a string stop byte by byte reaches the place that the walk from
character to character reaches, whatever the text and the offset (`seekStepwise_withOverflow`). If
the source fits, no note is ever made, and the two end in the same state
(`seekBytes_eq_seekStepwise`).
-/

set_option autoImplicit false
set_option relaxedAutoImplicit false

namespace GrammarFragments

/-- A position in a source, with the bounds of the token under construction. From a start inside of
the source no operation leads past its end, so all the offsets are numbers of 32 bits. -/
structure ByteReader where
  source : Source
  offset : Nat
  tokenStart : Nat
  committed : Option Nat
  /-- The offset of the first character that could not be passed. -/
  overflow : Option Nat

/-- The reader at an offset, cut down to the length of the source. The token starts there. -/
def Source.readerAt (source : Source) (offset : Nat) : ByteReader :=
  ⟨source, min offset source.size, min offset source.size, none, none⟩

theorem Source.readerAt_of_le {source : Source} {offset : Nat} (hoffset : offset ≤ source.size) :
    source.readerAt offset = ⟨source, offset, offset, none, none⟩ := by
  rw [Source.readerAt, Nat.min_eq_left hoffset]

/-- The reader at the start of a source. -/
def Source.reader (source : Source) : ByteReader := source.readerAt 0

namespace ByteReader

/-- The last committed end of the token; the current offset as long as none was committed. -/
def tokenEnd (reader : ByteReader) : Nat := reader.committed.getD reader.offset

/-- Starts a new token here. -/
def resetToken (reader : ByteReader) : ByteReader :=
  { reader with tokenStart := reader.offset, committed := none }

/-- The text of the token under construction. -/
def tokenText (reader : ByteReader) : String :=
  reader.source.slice reader.tokenStart reader.tokenEnd

/-- The byte after the current one, if the block of storage reaches that far. -/
def readAhead (reader : ByteReader) : Except Source.OutOfBounds UInt8 :=
  reader.source.read (reader.offset + 1)

/-! ### The operations of a reader -/

/-- Passes the character here, all of its bytes together. -/
def advanceChar (reader : ByteReader) : ByteReader :=
  { reader with
    offset := reader.source.next reader.offset
    overflow := reader.overflow.or (reader.source.overflow? reader.offset) }

theorem advanceChar_of_le {reader : ByteReader} (hend : reader.source.size ≤ reader.offset) :
    reader.advanceChar = reader := by
  rw [advanceChar, Source.next_of_le hend, Source.overflow?_of_le hend, Option.or_none]

theorem advanceChar_of_fits {reader : ByteReader} (hfits : reader.source.Fits) :
    reader.advanceChar = { reader with offset := reader.source.next reader.offset } := by
  rw [advanceChar, hfits.overflow?_eq_none, Option.or_none]

theorem overflow_advanceChar {reader : ByteReader} (hfits : reader.source.Fits) :
    reader.advanceChar.overflow = reader.overflow := by
  rw [advanceChar_of_fits hfits]

/-- Passes the character here and starts the token after it. -/
def skipChar (reader : ByteReader) : ByteReader :=
  { reader.advanceChar with tokenStart := reader.advanceChar.offset }

/-- Commits the end of the token here. -/
def commitEnd (reader : ByteReader) : ByteReader :=
  { reader with committed := some reader.offset }

theorem headD_charsFrom (source : Source) (offset : Nat) :
    source.byteAt offset = (source.charsFrom offset).headD 0 := by
  by_cases hoffset : offset < source.size
  · rw [Source.charsFrom_of_lt hoffset, List.headD_cons]
  · rw [Source.charsFrom_of_le (by omega), Source.byteAt, dif_neg hoffset, List.headD_nil]

theorem isEmpty_charsFrom (source : Source) (offset : Nat) :
    decide (source.size ≤ offset) = (source.charsFrom offset).isEmpty := by
  by_cases hoffset : offset < source.size
  · rw [Source.charsFrom_of_lt hoffset, List.isEmpty_cons, decide_eq_false (by omega)]
  · rw [Source.charsFrom_of_le (by omega), List.isEmpty_nil, decide_eq_true (by omega)]

theorem tail_charsFrom (source : Source) (offset : Nat) :
    source.charsFrom (source.next offset) = (source.charsFrom offset).tail := by
  by_cases hoffset : offset < source.size
  · rw [Source.charsFrom_of_lt hoffset, List.tail_cons]
  · rw [Source.next_of_le (by omega), Source.charsFrom_of_le (by omega), List.tail_nil]

instance : Reader ByteReader where
  current reader := reader.source.byteAt reader.offset
  atEnd reader := reader.source.size ≤ reader.offset
  advance := advanceChar
  skip := skipChar
  commit := commitEnd
  rest reader := reader.source.charsFrom reader.offset
  current_eq_headD reader := headD_charsFrom reader.source reader.offset
  atEnd_eq_isEmpty reader := isEmpty_charsFrom reader.source reader.offset
  rest_advance reader := tail_charsFrom reader.source reader.offset
  rest_skip reader := tail_charsFrom reader.source reader.offset
  rest_commit _ := rfl

theorem current_eq_byteAt (reader : ByteReader) :
    Reader.current reader = reader.source.byteAt reader.offset :=
  rfl

theorem atEnd_iff {reader : ByteReader} :
    Reader.atEnd reader = true ↔ reader.source.size ≤ reader.offset :=
  decide_eq_true_iff

theorem advance_of_atEnd {reader : ByteReader} (hend : Reader.atEnd reader = true) :
    Reader.advance reader = reader :=
  advanceChar_of_le (atEnd_iff.mp hend)

theorem atEnd_eq_false_iff {reader : ByteReader} :
    Reader.atEnd reader = false ↔ reader.offset < reader.source.size :=
  decide_eq_false_iff_not.trans Nat.not_le

/-- In front of a character inside of which the text was cut, advancing leads to the end of what is
held, and the character is noted, unless one was noted before. -/
theorem advance_of_cutInside {reader : ByteReader} {front : List Char} {char : Char}
    (hcut : reader.source.CutInside front char)
    (hoffset : reader.offset = Source.encodedSize front) :
    Reader.advance reader = { reader with
      offset := reader.source.size
      overflow := reader.overflow.or (some reader.offset) } := by
  change reader.advanceChar = _
  rw [advanceChar, hoffset, hcut.next_eq, hcut.overflow?_eq]

/-! ### Search in bulk -/

/-- Goes to the next double quote or backslash by looking at every byte. -/
def seekBytes (reader : ByteReader) : ByteReader :=
  { reader with offset := reader.source.find isStringStop reader.offset }

/-- The search over bytes reaches the place that the walk from character to character reaches. Only
the walk can come upon a character that cannot be passed. -/
theorem seekStepwise_withOverflow (reader : ByteReader) :
    { Reader.seekStepwise reader with overflow := reader.overflow } = reader.seekBytes := by
  rw [Reader.seekStepwise]
  fun_induction Reader.advanceWhile (fun byte ↦ !isStringStop byte) reader with
  | case1 reader hend =>
    rw [seekBytes, Source.find_of_le (by simpa [Reader.atEnd] using hend)]
  | case2 reader hend hstop ih =>
    rw [seekBytes, Source.find_next asciiOnly_isStringStop
      (by simpa [Reader.atEnd] using hend) (by simpa [Reader.current] using hstop)]
    exact congrArg (fun stop : ByteReader ↦ { stop with overflow := reader.overflow }) ih
  | case3 reader hend hstop =>
    rw [seekBytes, Source.find_of_stop (by simpa [Reader.current] using hstop)]

theorem rest_seekBytes (reader : ByteReader) :
    Reader.rest reader.seekBytes =
      (Reader.rest reader).dropWhile fun byte ↦ !isStringStop byte := by
  rw [← seekStepwise_withOverflow, ← Reader.rest_advanceWhile]
  rfl

instance : SeekReader ByteReader where
  seek := seekBytes
  rest_seek := rest_seekBytes

/-- In a source that fits, a walk comes upon no character that cannot be passed. -/
theorem overflow_seekStepwise {reader : ByteReader} (hfits : reader.source.Fits) :
    (Reader.seekStepwise reader).overflow = reader.overflow := by
  have hstep : ∀ later : ByteReader, later.source.Fits ∧ later.overflow = reader.overflow →
      (Reader.advance later).source.Fits ∧ (Reader.advance later).overflow = reader.overflow := by
    rintro later ⟨hlater, hoverflow⟩
    exact ⟨hlater, (overflow_advanceChar hlater).trans hoverflow⟩
  exact (Reader.advanceWhile_holds hstep (fun byte ↦ !isStringStop byte) ⟨hfits, rfl⟩).2

theorem seekBytes_eq_seekStepwise {reader : ByteReader} (hfits : reader.source.Fits) :
    reader.seekBytes = Reader.seekStepwise reader := by
  rw [← seekStepwise_withOverflow, ← overflow_seekStepwise hfits]

/-- The source fits, and every character so far could be passed. -/
structure Unhindered (reader : ByteReader) : Prop where
  fits : reader.source.Fits
  overflow_eq : reader.overflow = none

theorem Unhindered.advance_unhindered {reader : ByteReader} (hunhindered : Unhindered reader) :
    Unhindered (Reader.advance reader) :=
  ⟨hunhindered.fits, (overflow_advanceChar hunhindered.fits).trans hunhindered.overflow_eq⟩

theorem Unhindered.seek_unhindered {reader : ByteReader} (hunhindered : Unhindered reader) :
    Unhindered (SeekReader.seek reader) :=
  ⟨hunhindered.fits, hunhindered.overflow_eq⟩

/-- Assumes: a property of readers over sources that fit, which advancing keeps. A search in bulk
keeps it. -/
theorem seekBytes_holds {holds : ByteReader → Prop}
    (hfits : ∀ reader, holds reader → reader.source.Fits)
    (hadvance : ∀ reader : ByteReader, holds reader → holds (Reader.advance reader))
    (reader : ByteReader) (hholds : holds reader) : holds (SeekReader.seek reader) := by
  change holds reader.seekBytes
  rw [seekBytes_eq_seekStepwise (hfits reader hholds)]
  exact Reader.advanceWhile_holds hadvance _ hholds

end ByteReader

end GrammarFragments
