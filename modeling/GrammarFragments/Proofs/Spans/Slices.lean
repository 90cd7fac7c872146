import GrammarFragments.Proofs.Simulation.BulkSearch
import GrammarFragments.Proofs.Spans.Runs
import GrammarFragments.Proofs.Storage

/-!
The text between two offsets. A slice takes the bytes between its offsets, which are cut down to the
text, and gives them as a text if they are one. They are one exactly when both offsets lie between
characters, unless there are none of them (`slice_of_boundaries`, `slice_of_not_boundaries`). What
is meant by the text between two offsets is said without bytes: the whole text falls into three
parts, and the sizes of the first and of the first two are the offsets (`StandsBetween`).

The bounds of a token are taken from the places of a reader, so over a source that fits, a reader
that starts between characters never has the text of its token replaced by the empty text, whatever
calls are made on it (`tokenText_of_wellPlaced`). Main statement: `slice_exact_or_empty`. Where a
text is cut inside of a character, the search in bulk leads to a place that is none
(`tokenText_empty_at_cut`).
-/

set_option autoImplicit false
set_option relaxedAutoImplicit false

namespace GrammarFragments

namespace Source

variable {source : Source} {first last : Nat} {text : String}

/-- The text stands between the two offsets: the first is the size of what is in front of it, and
the last is the size of that together with the text. -/
def StandsBetween (source : Source) (first last : Nat) (text : String) : Prop :=
  ∃ front back, source.text = front ++ text ++ back ∧ front.utf8ByteSize = first ∧
    (front ++ text).utf8ByteSize = last

/-- A text between two offsets has the bytes between them. -/
theorem StandsBetween.toByteArray_eq (hstands : source.StandsBetween first last text) :
    text.toByteArray = source.text.toByteArray.extract first last := by
  obtain ⟨front, back, htext, rfl, rfl⟩ := hstands
  have hfront : (front ++ text).toByteArray.extract front.utf8ByteSize
      (front ++ text).utf8ByteSize = text.toByteArray := by
    rw [String.toByteArray_append]
    exact ByteArray.extract_append_eq_right String.size_toByteArray.symm
      (by rw [String.utf8ByteSize_append, String.size_toByteArray, String.size_toByteArray])
  rw [htext, String.toByteArray_append, ByteArray.extract_append, String.size_toByteArray,
    Nat.sub_self, hfront]
  simp

/-- Assumes: two boundaries. The text with the bytes between them stands between them. -/
theorem standsBetween_of_toByteArray_eq (hle : first ≤ last) (hfirst : source.IsBoundary first)
    (hlast : source.IsBoundary last)
    (hbytes : text.toByteArray = source.text.toByteArray.extract first last) :
    source.StandsBetween first last text := by
  let front := String.fromUTF8 _ hfirst.isValidUTF8_extract_zero
  let back := String.fromUTF8 _ hlast.isValidUTF8_extract_utf8ByteSize
  have hsize : last ≤ source.text.utf8ByteSize := hlast.le_rawEndPos
  have htaken : (front ++ text).toByteArray = source.text.toByteArray.extract 0 last := by
    rw [String.toByteArray_append, hbytes]
    exact ByteArray.extract_append_extract.trans (by rw [Nat.zero_min, Nat.max_eq_right hle])
  refine ⟨front, back, ?_, ?_, ?_⟩
  · rw [← String.toByteArray_inj, String.toByteArray_append, htaken]
    symm
    refine ByteArray.extract_append_extract.trans ?_
    rw [Nat.zero_min, Nat.max_eq_right hsize, ← String.size_toByteArray]
    exact ByteArray.extract_zero_size
  · rw [← String.size_toByteArray]
    refine ByteArray.size_extract.trans ?_
    rw [String.size_toByteArray, Nat.min_eq_left (Nat.le_trans hle hsize), Nat.sub_zero]
  · rw [← String.size_toByteArray, htaken, ByteArray.size_extract, String.size_toByteArray,
      Nat.min_eq_left hsize, Nat.sub_zero]

/-! ### Slices -/

/-- Offsets past the end of the text, or past each other, are cut down first. -/
theorem slice_eq_slice_min (source : Source) (start stop : Nat) :
    source.slice start stop =
      source.slice (min start (min stop source.size)) (min stop source.size) := by
  have hlast : min (min stop source.size) source.size = min stop source.size :=
    Nat.min_eq_left (Nat.min_le_right _ _)
  have hfirst : min (min start (min stop source.size)) (min stop source.size) =
      min start (min stop source.size) := Nat.min_eq_left (Nat.min_le_right _ _)
  simp only [slice, hlast, hfirst]

theorem slice_of_le (hle : first ≤ last) (hsize : last ≤ source.size) :
    source.slice first last =
      (String.fromUTF8? (source.text.toByteArray.extract first last)).getD "" := by
  simp only [slice, Nat.min_eq_left hsize, Nat.min_eq_left hle]

/-- The bytes between two offsets of what is held are a text if there are none, or if both offsets
are boundaries. -/
theorem isValidUTF8_extract_iff (hle : first ≤ last) (hsize : last ≤ source.size) :
    (source.text.toByteArray.extract first last).IsValidUTF8 ↔
      (⟨first⟩ : String.Pos.Raw) = ⟨last⟩ ∨ source.IsBoundary first ∧ source.IsBoundary last :=
  String.Pos.Raw.isValidUTF8_extract_iff ⟨first⟩ ⟨last⟩ hle
    (Nat.le_trans hsize source.size_le_utf8ByteSize)

/-- Assumes: two boundaries in what is held. A slice between them is the text that stands there, and
no other text does. -/
theorem slice_of_boundaries (hle : first ≤ last) (hsize : last ≤ source.size)
    (hfirst : source.IsBoundary first) (hlast : source.IsBoundary last) :
    source.slice first last = text ↔ source.StandsBetween first last text := by
  have hvalid := (isValidUTF8_extract_iff hle hsize).mpr (.inr ⟨hfirst, hlast⟩)
  have hbytes : (source.slice first last).toByteArray =
      source.text.toByteArray.extract first last := by
    rw [slice_of_le hle hsize, String.fromUTF8?, dif_pos hvalid]
    rfl
  constructor
  · rintro rfl
    exact standsBetween_of_toByteArray_eq hle hfirst hlast hbytes
  · intro hstands
    rw [← String.toByteArray_inj, hbytes, hstands.toByteArray_eq]

theorem slice_self (hsize : last ≤ source.size) : source.slice last last = "" := by
  rw [slice_of_le (Nat.le_refl last) hsize, ByteArray.extract_same]
  rfl

/-- Assumes: offsets in what is held that are not both boundaries. The slice between them is empty:
there are no bytes between them, or those that are there are no text. -/
theorem slice_of_not_boundaries (hle : first ≤ last) (hsize : last ≤ source.size)
    (hinside : ¬ (source.IsBoundary first ∧ source.IsBoundary last)) :
    source.slice first last = "" := by
  by_cases hsame : first = last
  · rw [hsame]
    exact slice_self hsize
  · have hinvalid : ¬ (source.text.toByteArray.extract first last).IsValidUTF8 := by
      intro htext
      rcases (isValidUTF8_extract_iff hle hsize).mp htext with hequal | hboundaries
      · exact hsame (congrArg String.Pos.Raw.byteIdx hequal)
      · exact hinside hboundaries
    rw [slice_of_le hle hsize, String.fromUTF8?, dif_neg hinvalid, Option.getD_none]

/-- If the text was cut inside of a character, every slice to the end of what is held is empty. -/
theorem slice_size_of_cutInside {front : List Char} {char : Char}
    (hcut : CutInside source front char) (start : Nat) : source.slice start source.size = "" := by
  rw [slice_eq_slice_min, Nat.min_self]
  exact slice_of_not_boundaries (Nat.min_le_right _ _) (Nat.le_refl _)
    fun hboundaries ↦ hcut.not_isBoundary_size hboundaries.2

end Source

/-! ### Tokens -/

namespace ByteReader

open Source

variable {source : Source} {reader : ByteReader}

/-- Calls on a reader leave it well placed. -/
theorem wellPlaced_performAll (hplaced : WellPlaced source reader) (calls : List ReaderCall) :
    WellPlaced source (ReaderCall.performAll resetToken reader calls) := by
  obtain ⟨hreader, hpast⟩ := (operations_keep_wellPlaced source).performAll_traced hplaced calls
  rw [← hreader]
  exact hpast.holds_visited _ List.mem_cons_self

/-- The token of a well-placed reader has the text between its bounds. -/
theorem tokenText_of_wellPlaced (hplaced : WellPlaced source reader)
    (horder : reader.tokenStart ≤ reader.tokenEnd) {text : String} :
    reader.tokenText = text ↔
      source.StandsBetween reader.tokenStart reader.tokenEnd text := by
  obtain rfl := hplaced.source_eq
  exact slice_of_boundaries horder (hplaced.tokenEnd_boundary.le_size hplaced.fits)
    hplaced.tokenStart_boundary hplaced.tokenEnd_boundary

/-- A token that ends in front of its start has the empty text. -/
theorem tokenText_of_lt (horder : reader.tokenEnd < reader.tokenStart) :
    reader.tokenText = "" := by
  have hfirst : min reader.tokenStart (min reader.tokenEnd reader.source.size) =
      min reader.tokenEnd reader.source.size := by omega
  rw [tokenText, slice_eq_slice_min, hfirst]
  exact slice_self (Nat.min_le_right _ _)

end ByteReader

/-- Any two offsets are cut down to what is held of the text and to each other. What is left of the
range lies in the storage of the source. If both of its ends are boundaries, the slice is the one
text that stands between them, and otherwise it is empty.

Assumes: a reader over the source that starts at a boundary, with any calls made on it. If the
source fits, every character could be passed, and the text of the token of this reader is the one
that stands between the bounds of the token, if these are in order, and empty if they are not. -/
theorem slice_exact_or_empty (source : Source) (start stop origin : Nat) (calls : List ReaderCall)
    (horigin : source.IsBoundary origin) :
    let last := min stop source.size
    let first := min start last
    let reader := ReaderCall.performAll ByteReader.resetToken (source.readerAt origin) calls
    (first ≤ last ∧ last < source.storage.length) ∧
      (source.IsBoundary first ∧ source.IsBoundary last →
        ∀ text, source.slice start stop = text ↔ source.StandsBetween first last text) ∧
      (¬ (source.IsBoundary first ∧ source.IsBoundary last) → source.slice start stop = "") ∧
      (source.Fits → reader.overflow = none ∧
        (reader.tokenStart ≤ reader.tokenEnd → ∀ text,
          reader.tokenText = text ↔
            source.StandsBetween reader.tokenStart reader.tokenEnd text) ∧
        (reader.tokenEnd < reader.tokenStart → reader.tokenText = "")) := by
  intro last first reader
  have hle : first ≤ last := Nat.min_le_right _ _
  have hsize : last ≤ source.size := Nat.min_le_right _ _
  rw [Source.length_storage, Source.slice_eq_slice_min]
  refine ⟨⟨hle, Nat.lt_of_le_of_lt hsize source.size_lt_capacity⟩, ?_,
    Source.slice_of_not_boundaries hle hsize, fun hfits ↦ ?_⟩
  · rintro ⟨hfirst, hlast⟩ text
    exact Source.slice_of_boundaries hle hsize hfirst hlast
  · have hplaced : reader.WellPlaced source :=
      ByteReader.wellPlaced_performAll (ByteReader.wellPlaced_readerAt hfits horigin) calls
    refine ⟨hplaced.overflow_eq, fun horder text ↦ ?_, ByteReader.tokenText_of_lt⟩
    exact ByteReader.tokenText_of_wellPlaced hplaced horder

/-- A slice that starts inside of a character is empty. The text of a comment that a scan has found
is the comment. -/
theorem slice_exact_or_empty_witness :
    let source : Source := ⟨"é (*→*)"⟩
    let reader := ReaderCall.performAll ByteReader.resetToken (source.readerAt 2)
      [.scan ⟨1⟩ .initial]
    source.IsBoundary 2 ∧ source.Fits ∧ ¬ source.IsBoundary 1 ∧ source.slice 1 4 = "" ∧
      reader.tokenText = "(*→*)" := by
  intro source reader
  have horigin : source.IsBoundary 2 := by decide +kernel
  have hinside : ¬ source.IsBoundary 1 := by decide +kernel
  have hfits : source.Fits := by decide +kernel
  obtain ⟨-, -, hempty, htoken⟩ :=
    slice_exact_or_empty source 1 4 2 [.scan ⟨1⟩ .initial] horigin
  obtain ⟨-, hexact, -⟩ := htoken hfits
  refine ⟨horigin, hfits, hinside, hempty (fun hboundaries ↦ hinside hboundaries.1), ?_⟩
  refine (hexact (by decide +kernel) _).mpr ⟨"é ", "", ?_, ?_, ?_⟩
  · decide +kernel
  · decide +kernel
  · decide +kernel

/-- In front of a character of two bytes of which only the first can be addressed, the search in
bulk goes to the end of what is held. The bounds of the token are in order, its text is empty, and
it is not the empty text that stands between them. -/
theorem tokenText_empty_at_cut :
    let source : Source := ⟨String.ofList (List.replicate 4294967294 'a' ++ ['é'])⟩
    let reader := ReaderCall.performAll ByteReader.resetToken (source.readerAt 4294967294) [.seek]
    source.IsBoundary 4294967294 ∧ reader.overflow = none ∧
      (reader.tokenStart = 4294967294 ∧ reader.tokenEnd = 4294967295) ∧ reader.tokenText = "" ∧
      ¬ source.StandsBetween reader.tokenStart reader.tokenEnd reader.tokenText := by
  intro source reader
  obtain ⟨hcut, hbytes, -⟩ := seek_cutLetter
  have hreader : reader = ⟨source, 4294967295, 4294967294, none, none⟩ := hbytes
  have hsize : source.size = 4294967295 := hcut.size_eq
  have hfront : Source.encodedSize (List.replicate 4294967294 'a') = 4294967294 :=
    Source.encodedSize_replicate 4294967294 'a'
  have htext : source.text.toList = List.replicate 4294967294 'a' ++ ['é'] := String.toList_ofList
  have hboundary := Source.isBoundary_encodedSize htext
  rw [hfront] at hboundary
  have hempty : reader.tokenText = "" := by
    have hslice := Source.slice_size_of_cutInside hcut 4294967294
    rw [hsize] at hslice
    rw [hreader]
    exact hslice
  rw [hempty, hreader]
  refine ⟨hboundary, rfl, ⟨rfl, rfl⟩, rfl, ?_⟩
  rintro ⟨front, back, -, hstart, hstop⟩
  rw [String.append_empty, hstart] at hstop
  exact absurd hstop (by decide)

end GrammarFragments
