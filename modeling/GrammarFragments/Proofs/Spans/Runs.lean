import GrammarFragments.Proofs.Simulation.Calls
import GrammarFragments.Proofs.Spans.Boundaries

/-!
What the reader over a source that fits keeps throughout. From a start between two characters it
stays between characters, and with it the ends of the token, whatever calls are made on it
(`ByteReader.WellPlaced`); the offset and the start of the token never go back
(`ByteReader.NotBefore`). The states inside of the recognizers are no exception.

In each of these states the byte here can be read, it is zero at the end of the text, and in front
of the end it is the first byte of a character, which gives the width of that character. So going on
never has to be cut off at the end of the text, and an offset never leaves the range of 32 bits.
-/

set_option autoImplicit false
set_option relaxedAutoImplicit false

namespace GrammarFragments

open Reader

/-! ### The character at an offset -/

namespace Source

/-- The character stands at the offset: in front of it are as many bytes as the offset says. -/
def CharAt (source : Source) (offset : Nat) (char : Char) : Prop :=
  ∃ front back, source.text.toList = front ++ char :: back ∧ encodedSize front = offset

variable {source : Source} {offset : Nat}

/-- At every boundary in front of the end stands a character. -/
theorem IsBoundary.exists_charAt (hboundary : source.IsBoundary offset) (hfits : source.Fits)
    (hoffset : offset < source.size) : ∃ char, source.CharAt offset char := by
  obtain ⟨index, front, back, htext, -, hfront⟩ := isBoundary_iff_exists_isCharIndex.mp hboundary
  cases back with
  | nil =>
    rw [List.append_nil] at htext
    rw [hfits.size_eq_encodedSize, htext, hfront] at hoffset
    exact absurd hoffset (Nat.lt_irrefl offset)
  | cons char back => exact ⟨char, front, back, htext, hfront⟩

/-- The byte at the offset of a character gives the width of that character. -/
theorem CharAt.leadWidth_eq {char : Char} (hchar : source.CharAt offset char)
    (hfits : source.Fits) : leadWidth (source.byteAt offset) = char.utf8Size := by
  obtain ⟨front, back, htext, rfl⟩ := hchar
  obtain ⟨lead, trailing, hencode, hwidth, -, hbyte, -⟩ := hfits.exists_lead_of_toList_eq htext
  rw [hbyte, hwidth, ← String.length_utf8EncodeChar, hencode, List.length_cons]

/-- The byte at a boundary in front of the end is the first byte of a character. -/
theorem IsBoundary.isUTF8FirstByte (hboundary : source.IsBoundary offset)
    (hoffset : offset < source.size) : (source.byteAt offset).IsUTF8FirstByte := by
  rw [byteAt, dif_pos hoffset]
  rcases String.Pos.Raw.isValid_iff_isUTF8FirstByte.mp hboundary with hend | ⟨hvalid, hfirst⟩
  · have hsize : offset = source.text.utf8ByteSize := congrArg String.Pos.Raw.byteIdx hend
    exact absurd hsize (Nat.ne_of_lt (Nat.lt_of_lt_of_le hoffset source.size_le_utf8ByteSize))
  · exact hfirst

/-- No read up to the end of the text is refused: the storage has one byte more than the text. -/
theorem read_of_le (hoffset : offset ≤ source.size) :
    source.read offset = .ok (source.byteAt offset) := by
  have hcapacity : offset < source.capacity := by
    unfold capacity lineSize
    omega
  rw [read, if_pos hcapacity]

end Source

/-! ### What each operation keeps -/

namespace ByteReader

/-- The reader over the source stands between characters, and so do the ends of its token, which
does not start after the place of the reader. Every character so far could be passed. -/
structure WellPlaced (source : Source) (reader : ByteReader) : Prop extends Aligned reader where
  source_eq : reader.source = source
  tokenStart_boundary : source.IsBoundary reader.tokenStart
  tokenStart_le : reader.tokenStart ≤ reader.offset
  overflow_eq : reader.overflow = none

/-- Neither the offset nor the start of the token lies before that of the earlier reader. -/
structure NotBefore (later earlier : ByteReader) : Prop where
  offset_le : earlier.offset ≤ later.offset
  tokenStart_le : earlier.tokenStart ≤ later.tokenStart

theorem NotBefore.trans {last middle first : ByteReader} (hlast : NotBefore last middle)
    (hmiddle : NotBefore middle first) : NotBefore last first where
  offset_le := Nat.le_trans hmiddle.offset_le hlast.offset_le
  tokenStart_le := Nat.le_trans hmiddle.tokenStart_le hlast.tokenStart_le

theorem wellPlaced_readerAt {source : Source} {origin : Nat} (hfits : source.Fits)
    (horigin : source.IsBoundary origin) : WellPlaced source (source.readerAt origin) := by
  have hmin : min origin source.size = origin := Nat.min_eq_left (horigin.le_size hfits)
  have hboundary : source.IsBoundary (min origin source.size) := hmin.symm ▸ horigin
  exact ⟨⟨hfits, hboundary, nofun⟩, rfl, hboundary, Nat.le_refl _, rfl⟩

variable {source : Source}

theorem advance_wellPlaced : OperationKeeps (WellPlaced source) NotBefore advance := by
  intro reader hplaced
  have hle : reader.offset ≤ (advance reader).offset := reader.source.le_next reader.offset
  constructor
  · exact { hplaced.advance_aligned, hplaced with
      tokenStart_le := Nat.le_trans hplaced.tokenStart_le hle
      overflow_eq := (overflow_advanceChar hplaced.fits).trans hplaced.overflow_eq }
  · exact ⟨hle, Nat.le_refl _⟩

/-- The token starts again after the character that was skipped. -/
theorem skip_wellPlaced : OperationKeeps (WellPlaced source) NotBefore skip := by
  intro reader hplaced
  obtain ⟨hadvanced, hfollows⟩ := advance_wellPlaced reader hplaced
  have hboundary : source.IsBoundary (advance reader).offset :=
    hadvanced.source_eq ▸ hadvanced.offset_boundary
  constructor
  · exact { hadvanced with
      tokenStart_boundary := hboundary
      tokenStart_le := Nat.le_refl _ }
  · exact ⟨hfollows.offset_le, Nat.le_trans hplaced.tokenStart_le hfollows.offset_le⟩

theorem commit_wellPlaced : OperationKeeps (WellPlaced source) NotBefore commit := by
  intro reader hplaced
  constructor
  · exact { hplaced.commit_aligned, hplaced with }
  · exact ⟨Nat.le_refl _, Nat.le_refl _⟩

theorem resetToken_wellPlaced : OperationKeeps (WellPlaced source) NotBefore resetToken := by
  intro reader hplaced
  have hboundary : source.IsBoundary reader.offset := hplaced.source_eq ▸ hplaced.offset_boundary
  constructor
  · exact ⟨⟨hplaced.fits, hplaced.offset_boundary, nofun⟩, hplaced.source_eq, hboundary,
      Nat.le_refl _, hplaced.overflow_eq⟩
  · exact ⟨Nat.le_refl _, hplaced.tokenStart_le⟩

theorem operations_keep_wellPlaced (source : Source) :
    OperationsKeep (WellPlaced source) NotBefore resetToken where
  trans := NotBefore.trans
  seek_eq _ hplaced := seekBytes_eq_seekStepwise hplaced.fits
  advance_keeps := advance_wellPlaced
  skip_keeps := skip_wellPlaced
  commit_keeps := commit_wellPlaced
  reset_keeps := resetToken_wellPlaced

end ByteReader

/-- Assumes: a well-placed reader in front of the end. It shows the first byte of the character
here, and going on adds the width of that character to the offset, with nothing to cut off. -/
theorem ByteReader.WellPlaced.passes_char {source : Source} {reader : ByteReader}
    (hplaced : WellPlaced source reader) (hend : atEnd reader = false) :
    (current reader).IsUTF8FirstByte ∧
      reader.offset + Source.leadWidth (current reader) ≤ source.size ∧
      ∃ char, source.CharAt reader.offset char ∧
        (advance reader).offset = reader.offset + char.utf8Size := by
  have hoffset := atEnd_eq_false_iff.mp hend
  obtain rfl := hplaced.source_eq
  obtain ⟨char, hchar⟩ := hplaced.offset_boundary.exists_charAt hplaced.fits hoffset
  refine ⟨hplaced.offset_boundary.isUTF8FirstByte hoffset,
    hplaced.fits.add_leadWidth_le_size hoffset, char, hchar, ?_⟩
  rw [← hchar.leadWidth_eq hplaced.fits]
  exact hplaced.fits.next_of_lt hoffset

/-- The reader over a text of less than `2 ^ 32` bytes starts between two characters, and calls are
made on it, any number of any sort. A traced reader ends where the reader ends, and in every state
that it has been in every character so far could be passed, and:

* the offset, the start of the token and the end of the token, if one was committed, are boundaries
  in the text, and the token does not start after the offset;
* the byte here can be read, and at the end of the text it is zero;
* in front of the end it is ASCII or the leading byte of a character, its width added to the offset
  is less than `2 ^ 32` and does not lead past the end of the text, and advancing adds the width of
  the character that stands there.

From each state to every later one neither the offset nor the start of the token decreases. -/
theorem representation_kept_over_runs (source : Source) (origin : Nat) (calls : List ReaderCall)
    (hfits : source.Fits) (horigin : source.IsBoundary origin) :
    let start := source.readerAt origin
    let traced := ReaderCall.performAll (Traced.record ByteReader.resetToken) ⟨start, []⟩ calls
    traced.reader = ReaderCall.performAll ByteReader.resetToken start calls ∧
      (∀ reader ∈ traced.visited,
        reader.source = source ∧ reader.overflow = none ∧
        (source.IsBoundary reader.offset ∧ reader.offset ≤ source.size) ∧
        (source.IsBoundary reader.tokenStart ∧ reader.tokenStart ≤ reader.offset) ∧
        (∀ stop, reader.committed = some stop → source.IsBoundary stop ∧ stop ≤ source.size) ∧
        source.read reader.offset = .ok (current reader) ∧
        (atEnd reader = true → current reader = 0) ∧
        (atEnd reader = false →
          (current reader).IsUTF8FirstByte ∧
          reader.offset + Source.leadWidth (current reader) < UInt32.size ∧
          reader.offset + Source.leadWidth (current reader) ≤ source.size ∧
          ∃ char, source.CharAt reader.offset char ∧
            (advance reader).offset = reader.offset + char.utf8Size)) ∧
      traced.visited.Pairwise ByteReader.NotBefore := by
  intro start traced
  obtain ⟨hreader, hpast⟩ := (ByteReader.operations_keep_wellPlaced source).performAll_traced
    (ByteReader.wellPlaced_readerAt hfits horigin) calls
  refine ⟨hreader, ?_, hpast.pairwise_visited⟩
  intro reader hvisited
  have hplaced := hpast.holds_visited reader hvisited
  obtain rfl := hplaced.source_eq
  have hoffset := hplaced.offset_boundary.le_size hfits
  refine ⟨rfl, hplaced.overflow_eq, ⟨hplaced.offset_boundary, hoffset⟩,
    ⟨hplaced.tokenStart_boundary, hplaced.tokenStart_le⟩, ?_, Source.read_of_le hoffset,
    current_eq_zero, ?_⟩
  · intro stop hstop
    have hboundary := hplaced.committed_boundary stop hstop
    exact ⟨hboundary, hboundary.le_size hfits⟩
  · intro hend
    obtain ⟨hfirst, hwidth, hpassed⟩ := hplaced.passes_char hend
    exact ⟨hfirst, Nat.lt_of_le_of_lt hwidth reader.source.size_lt, hwidth, hpassed⟩

/-- A scan over a comment with an arrow in it passes the three bytes of the arrow at once. -/
theorem representation_kept_over_runs_witness :
    let source : Source := ⟨"é(*→*)"⟩
    let traced := ReaderCall.performAll (Traced.record ByteReader.resetToken)
      ⟨source.readerAt 2, []⟩ [.scan ⟨1⟩ .initial, .resetToken]
    source.Fits ∧ source.IsBoundary 2 ∧
      traced.visited.map ByteReader.offset = [9, 9, 9, 8, 7, 4, 3, 2] ∧
      traced.visited.Pairwise ByteReader.NotBefore := by
  intro source traced
  have hfits : source.Fits := by decide +kernel
  have horigin : source.IsBoundary 2 := by decide +kernel
  have hkept := representation_kept_over_runs source 2 [.scan ⟨1⟩ .initial, .resetToken] hfits
    horigin
  exact ⟨hfits, horigin, by decide +kernel, hkept.2.2⟩

end GrammarFragments
