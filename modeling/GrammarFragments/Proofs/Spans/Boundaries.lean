import Mathlib.Data.Nat.Bitwise
import GrammarFragments.Proofs.CodePoints

/-!
Offsets between characters. An offset of a source is a boundary if no character has bytes on both
sides of it; these are the valid positions of the text as a string. Every ASCII byte stands at a
boundary (`isBoundary_of_isAscii`), since no other character has such a byte, and from a boundary
the next offset is one, if the source fits (`IsBoundary.next`). So a reader that stands between
characters, with a token that ends between characters, stays so whatever it passes and commits
(`ByteReader.Aligned`).
-/

set_option autoImplicit false
set_option relaxedAutoImplicit false

namespace GrammarFragments

open Reader

namespace Source

/-- The offset lies between two characters, or at an end of the text. -/
def IsBoundary (source : Source) (offset : Nat) : Prop :=
  String.Pos.Raw.IsValid source.text ⟨offset⟩

instance (source : Source) (offset : Nat) : Decidable (source.IsBoundary offset) :=
  inferInstanceAs (Decidable (String.Pos.Raw.IsValid source.text ⟨offset⟩))

variable {source : Source} {offset : Nat}

theorem IsBoundary.le_size (hboundary : source.IsBoundary offset) (hfits : source.Fits) :
    offset ≤ source.size := by
  rw [hfits.size_eq]
  exact hboundary.le_rawEndPos

theorem Fits.isBoundary_size (hfits : source.Fits) : source.IsBoundary source.size := by
  rw [hfits.size_eq]
  exact String.Pos.Raw.isValid_rawEndPos

/-- The boundaries are the offsets that have a whole number of characters in front of them. -/
theorem isBoundary_iff_exists_isCharIndex :
    source.IsBoundary offset ↔ ∃ index, source.IsCharIndex index offset := by
  have hsize : ∀ text : String, text.utf8ByteSize = encodedSize text.toList :=
    fun text ↦ (length_flatMap_encode text).symm
  rw [IsBoundary, String.Pos.Raw.isValid_iff_exists_append]
  constructor
  · rintro ⟨front, back, htext, hoffset⟩
    refine ⟨front.toList.length, front.toList, back.toList, ?_, rfl, ?_⟩
    · rw [htext, String.toList_append]
    · rw [← hsize]
      exact (congrArg String.Pos.Raw.byteIdx hoffset).symm
  · rintro ⟨index, front, back, htext, -, hoffset⟩
    refine ⟨String.ofList front, String.ofList back, ?_, ?_⟩
    · rw [← String.ofList_append, ← htext, String.ofList_toList]
    · rw [String.Pos.Raw.ext_iff]
      change offset = (String.ofList front).utf8ByteSize
      rw [hsize, String.toList_ofList, hoffset]

theorem isBoundary_encodedSize {front back : List Char}
    (htext : source.text.toList = front ++ back) : source.IsBoundary (encodedSize front) :=
  isBoundary_iff_exists_isCharIndex.mpr ⟨front.length, front, back, htext, rfl, rfl⟩

/-- Assumes: an offset behind the start of a character and in front of its end. It is no boundary.
-/
theorem not_isBoundary_of_inside {front back : List Char} {char : Char}
    (htext : source.text.toList = front ++ char :: back) (hfront : encodedSize front < offset)
    (hchar : offset < encodedSize (front ++ [char])) : ¬ source.IsBoundary offset := by
  rw [isBoundary_iff_exists_isCharIndex]
  rintro ⟨index, start, rest, hsplit, -, rfl⟩
  rcases List.append_eq_append_iff.mp (htext.symm.trans hsplit) with
    ⟨passed, rfl, hpassed⟩ | ⟨passed, rfl, -⟩
  · cases passed with
    | nil =>
      rw [List.append_nil] at hfront
      exact Nat.lt_irrefl _ hfront
    | cons first passed =>
      obtain ⟨rfl, -⟩ := List.cons.inj hpassed
      rw [← List.singleton_append, ← List.append_assoc, encodedSize_append] at hchar
      exact Nat.not_lt.mpr (Nat.le_add_right _ _) hchar
  · rw [encodedSize_append] at hfront
    omega

/-- If the text was cut inside of a character, what is held does not end at a boundary. -/
theorem CutInside.not_isBoundary_size {front : List Char} {char : Char}
    (hcut : CutInside source front char) : ¬ source.IsBoundary source.size := by
  obtain ⟨back, htext⟩ := hcut.toList_eq
  refine not_isBoundary_of_inside htext hcut.lt_size ?_
  rw [hcut.size_eq]
  exact hcut.sizeLimit_lt

/-- An ASCII byte is a whole character. -/
theorem isBoundary_of_isAscii (hoffset : offset < source.size)
    (hascii : isAscii (source.byteAt offset) = true) : source.IsBoundary offset := by
  refine String.Pos.Raw.isValid_iff_isUTF8FirstByte.mpr (.inr ⟨lt_rawEndPos hoffset, .inl ?_⟩)
  have hlow := UInt8.lt_iff_toNat_lt.mp (lt_of_isAscii hascii)
  rw [byteAt, dif_pos hoffset] at hlow
  rw [← UInt8.toNat_inj, UInt8.toNat_and]
  change _ &&& 2 ^ 7 = 0
  rw [Nat.and_two_pow, Nat.testBit_lt_two_pow hlow]
  rfl

/-- Inside of a character there are no ASCII bytes. -/
theorem le_byteAt_of_not_isBoundary (hoffset : offset < source.size)
    (hinside : ¬ source.IsBoundary offset) : 0x80 ≤ source.byteAt offset := by
  refine UInt8.not_lt.mp fun hlow ↦ ?_
  exact hinside (isBoundary_of_isAscii hoffset (decide_eq_true hlow))

/-- An offset inside of a character is not past the end of the text. -/
theorem lt_size_of_not_isBoundary (hfits : source.Fits) (hle : offset ≤ source.size)
    (hinside : ¬ source.IsBoundary offset) : offset < source.size := by
  refine Nat.lt_of_le_of_ne hle ?_
  rintro rfl
  exact hinside hfits.isBoundary_size

/-- After a whole character comes a boundary. -/
theorem IsBoundary.next (hboundary : source.IsBoundary offset) (hfits : source.Fits) :
    source.IsBoundary (source.next offset) := by
  obtain ⟨index, front, back, htext, hindex, rfl⟩ :=
    isBoundary_iff_exists_isCharIndex.mp hboundary
  cases back with
  | nil =>
    rw [List.append_nil] at htext
    have hend : encodedSize front = source.size := by rw [hfits.size_eq_encodedSize, htext]
    rw [next_of_le (Nat.le_of_eq hend.symm)]
    exact hboundary
  | cons char back =>
    obtain ⟨lead, trailing, -, -, -, -, hnext⟩ := hfits.exists_lead_of_toList_eq htext
    rw [hnext]
    exact isBoundary_encodedSize (htext.trans (List.append_cons front char back))

/-- An ASCII byte is passed by itself. -/
theorem next_eq_succ_of_isAscii (hoffset : offset < source.size)
    (hascii : isAscii (source.byteAt offset) = true) : source.next offset = offset + 1 := by
  have hlow : source.byteAt offset < 0xC0 := UInt8.lt_trans (lt_of_isAscii hascii) (by decide)
  rw [Source.next, if_pos hoffset, leadWidth, if_pos hlow]
  omega

/-- An ASCII byte can always be passed: its width leads at most to the largest offset. -/
theorem overflow?_of_isAscii (hoffset : offset < source.size)
    (hascii : isAscii (source.byteAt offset) = true) : source.overflow? offset = none := by
  have hlow : source.byteAt offset < 0xC0 := UInt8.lt_trans (lt_of_isAscii hascii) (by decide)
  have hlt := source.size_lt
  rw [overflow?, leadWidth, if_pos hlow, if_neg (by omega)]

end Source

/-! ### Readers between characters -/

namespace ByteReader

/-- An ASCII character other than zero is passed as one byte, and nothing else changes. -/
theorem advance_of_isAscii {reader : ByteReader} {ascii : UInt8} (hcurrent : current reader = ascii)
    (hascii : isAscii ascii = true) (hzero : ascii ≠ 0) :
    advance reader = { reader with offset := reader.offset + 1 } := by
  subst hcurrent
  have hend := atEnd_eq_false_iff.mp (atEnd_eq_false_of_current_ne_zero hzero)
  change reader.advanceChar = _
  rw [advanceChar, Source.next_eq_succ_of_isAscii hend hascii,
    Source.overflow?_of_isAscii hend hascii, Option.or_none]

theorem offset_advance {reader : ByteReader} {ascii : UInt8} (hcurrent : current reader = ascii)
    (hascii : isAscii ascii = true) (hzero : ascii ≠ 0) :
    (advance reader).offset = reader.offset + 1 :=
  congrArg offset (advance_of_isAscii hcurrent hascii hzero)

/-- The reader, over a source that fits, stands between characters, and so does the end of the token
if one was committed. -/
structure Aligned (reader : ByteReader) : Prop where
  fits : reader.source.Fits
  offset_boundary : reader.source.IsBoundary reader.offset
  committed_boundary : ∀ stop, reader.committed = some stop → reader.source.IsBoundary stop

namespace Aligned

variable {reader : ByteReader}

theorem advance_aligned (haligned : Aligned reader) : Aligned (advance reader) where
  fits := haligned.fits
  offset_boundary := haligned.offset_boundary.next haligned.fits
  committed_boundary := haligned.committed_boundary

theorem seek_aligned (haligned : Aligned reader) : Aligned (SeekReader.seek reader) :=
  seekBytes_holds (fun _ hhere ↦ hhere.fits) (fun _ hhere ↦ hhere.advance_aligned) reader haligned

theorem commit_aligned (haligned : Aligned reader) : Aligned (commit reader) where
  fits := haligned.fits
  offset_boundary := haligned.offset_boundary
  committed_boundary := by
    intro stop hstop
    cases hstop
    exact haligned.offset_boundary

/-- The token of such a reader ends between characters. -/
theorem tokenEnd_boundary (haligned : Aligned reader) :
    reader.source.IsBoundary reader.tokenEnd := by
  unfold tokenEnd
  cases hcommitted : reader.committed with
  | none => exact haligned.offset_boundary
  | some stop => exact haligned.committed_boundary stop hcommitted

end Aligned

end ByteReader

end GrammarFragments
