import GrammarFragments.Source.Basic

/-!
How the bytes of a source fall into characters. The first byte of a character gives its width, and
the bytes after it are at least `0x80`. So the bytes passed over by one step from any offset, inside
a character or not, are never ASCII (`le_byteAt_of_lt_next`), and a search for an ASCII byte that
looks at every byte finds what a search from character to character finds (`find_next`). Nor does a
step ever lead past the end of a text that is held as a whole (`Fits.next_of_lt`), so nothing
overflows there (`Fits.overflow?_eq_none`).
-/

set_option autoImplicit false
set_option relaxedAutoImplicit false

namespace GrammarFragments

namespace Source

/-! ### One character -/

/-- Assumes: a mask and a mark without a bit in common. A byte under the mask, with the mark set,
lies above the mark by no more than the mask. -/
theorem toNat_and_or_bounds (bits mask mark : UInt8) (hdisjoint : mask &&& mark = 0) :
    mark.toNat ≤ (bits &&& mask ||| mark).toNat ∧
      (bits &&& mask ||| mark).toNat ≤ mark.toNat + mask.toNat := by
  have hfree : (bits &&& mask).toBitVec &&& mark.toBitVec = 0#8 := by
    rw [← UInt8.toBitVec_and, UInt8.and_assoc, hdisjoint, UInt8.and_zero]
    rfl
  have hsum : (bits &&& mask ||| mark).toNat = (bits &&& mask).toNat + mark.toNat := by
    rw [← UInt8.toNat_toBitVec, UInt8.toBitVec_or, ← BitVec.add_eq_or_of_and_eq_zero _ _ hfree,
      BitVec.toNat_add_of_and_eq_zero hfree]
    rfl
  have hmask : (bits &&& mask).toNat ≤ mask.toNat := by
    rw [UInt8.toNat_and]
    exact Nat.and_le_right
  omega

theorem leadWidth_lead_two (bits : UInt8) : leadWidth (bits &&& 0x1F ||| 0xC0) = 2 := by
  have hbounds := toNat_and_or_bounds bits 0x1F 0xC0 rfl
  simp only [leadWidth, UInt8.lt_iff_toNat_lt, UInt8.reduceToNat] at hbounds ⊢
  rw [if_neg (by omega), if_pos (by omega)]

theorem leadWidth_lead_three (bits : UInt8) : leadWidth (bits &&& 0x0F ||| 0xE0) = 3 := by
  have hbounds := toNat_and_or_bounds bits 0x0F 0xE0 rfl
  simp only [leadWidth, UInt8.lt_iff_toNat_lt, UInt8.reduceToNat] at hbounds ⊢
  rw [if_neg (by omega), if_neg (by omega), if_pos (by omega)]

theorem leadWidth_lead_four (bits : UInt8) : leadWidth (bits &&& 0x07 ||| 0xF0) = 4 := by
  have hbounds := toNat_and_or_bounds bits 0x07 0xF0 rfl
  simp only [leadWidth, UInt8.lt_iff_toNat_lt, UInt8.reduceToNat] at hbounds ⊢
  rw [if_neg (by omega), if_neg (by omega), if_neg (by omega), if_pos (by omega)]

theorem trailing_byte (bits : UInt8) :
    0x80 ≤ (bits &&& 0x3F ||| 0x80) ∧ leadWidth (bits &&& 0x3F ||| 0x80) = 1 := by
  have hbounds := toNat_and_or_bounds bits 0x3F 0x80 rfl
  simp only [leadWidth, UInt8.le_iff_toNat_le, UInt8.lt_iff_toNat_lt, UInt8.reduceToNat]
    at hbounds ⊢
  refine ⟨hbounds.1, ?_⟩
  rw [if_pos (by omega)]

/-- The encoding of a character is a leading byte that gives the width, followed by bytes that are
at least `0x80` and start no character. -/
theorem exists_lead_trailing (char : Char) :
    ∃ lead trailing, String.utf8EncodeChar char = lead :: trailing ∧
      leadWidth lead = trailing.length + 1 ∧
      ∀ byte ∈ trailing, 0x80 ≤ byte ∧ leadWidth byte = 1 := by
  rcases char.utf8Size_eq with hsize | hsize | hsize | hsize
  · refine ⟨_, [], String.utf8EncodeChar_eq_singleton hsize, ?_, by simp⟩
    have hval := Char.utf8Size_eq_one_iff.mp hsize
    have hmod : char.val.toUInt8.toNat = char.val.toNat % 256 := UInt32.toNat_toUInt8 _
    have hlt : char.val.toUInt8 < 0xC0 := by
      rw [UInt32.le_iff_toNat_le] at hval
      rw [UInt8.lt_iff_toNat_lt, hmod]
      exact Nat.lt_of_le_of_lt (Nat.mod_le _ _) (Nat.lt_of_le_of_lt hval (by decide))
    simp only [leadWidth, if_pos hlt, List.length_nil]
  · refine ⟨_, _, String.utf8EncodeChar_eq_cons_cons hsize, leadWidth_lead_two _, ?_⟩
    simp only [List.mem_singleton, forall_eq]
    exact trailing_byte _
  · refine ⟨_, _, String.utf8EncodeChar_eq_cons_cons_cons hsize, leadWidth_lead_three _, ?_⟩
    simp only [List.mem_cons, List.not_mem_nil, or_false, forall_eq_or_imp, forall_eq]
    exact ⟨trailing_byte _, trailing_byte _⟩
  · refine ⟨_, _, String.utf8EncodeChar_eq_cons_cons_cons_cons hsize, leadWidth_lead_four _, ?_⟩
    simp only [List.mem_cons, List.not_mem_nil, or_false, forall_eq_or_imp, forall_eq]
    exact ⟨trailing_byte _, trailing_byte _, trailing_byte _⟩

/-! ### A whole text -/

/-- Within the encoding of a text, the bytes that the width of any one byte passes over are at least
`0x80`. -/
theorem le_of_getElem?_encode (chars : List Char) {first later : Nat} {byte passed : UInt8}
    (hbyte : (chars.flatMap String.utf8EncodeChar)[first]? = some byte)
    (hlater : first < later) (hwidth : later < first + leadWidth byte)
    (hpassed : (chars.flatMap String.utf8EncodeChar)[later]? = some passed) : 0x80 ≤ passed := by
  induction chars generalizing first later with
  | nil => simp at hbyte
  | cons char chars ih =>
    obtain ⟨lead, trailing, hencode, hlead, htrailing⟩ := exists_lead_trailing char
    rw [List.flatMap_cons, hencode, List.cons_append] at hbyte hpassed
    cases first with
    | zero =>
      obtain ⟨index, rfl⟩ : ∃ index, later = index + 1 := ⟨later - 1, by omega⟩
      simp only [List.getElem?_cons_zero, Option.some.injEq] at hbyte
      subst hbyte
      rw [List.getElem?_cons_succ, List.getElem?_append_left (by omega)] at hpassed
      exact (htrailing passed (List.mem_of_getElem? hpassed)).1
    | succ first =>
      obtain ⟨index, rfl⟩ : ∃ index, later = index + 1 := ⟨later - 1, by omega⟩
      rw [List.getElem?_cons_succ] at hbyte hpassed
      by_cases hinside : first < trailing.length
      · rw [List.getElem?_append_left hinside] at hbyte
        have hone := (htrailing byte (List.mem_of_getElem? hbyte)).2
        omega
      · rw [List.getElem?_append_right (by omega)] at hbyte hpassed
        exact ih hbyte (by omega) (by omega) hpassed

/-- Within the encoding of a text, the width that any one byte gives does not lead past the end. -/
theorem add_leadWidth_le_length (chars : List Char) {index : Nat} {byte : UInt8}
    (hbyte : (chars.flatMap String.utf8EncodeChar)[index]? = some byte) :
    index + leadWidth byte ≤ (chars.flatMap String.utf8EncodeChar).length := by
  induction chars generalizing index with
  | nil => simp at hbyte
  | cons char chars ih =>
    obtain ⟨lead, trailing, hencode, hlead, htrailing⟩ := exists_lead_trailing char
    rw [List.flatMap_cons, hencode, List.cons_append] at hbyte ⊢
    rw [List.length_cons, List.length_append]
    cases index with
    | zero =>
      rw [List.getElem?_cons_zero, Option.some.injEq] at hbyte
      rw [← hbyte, hlead]
      omega
    | succ index =>
      rw [List.getElem?_cons_succ] at hbyte
      rcases Nat.lt_or_ge index trailing.length with hinside | houtside
      · rw [List.getElem?_append_left hinside] at hbyte
        have hone := (htrailing byte (List.mem_of_getElem? hbyte)).2
        omega
      · rw [List.getElem?_append_right houtside] at hbyte
        have hle := ih hbyte
        omega

theorem toByteArray_eq_utf8Encode (text : String) : text.toByteArray = text.toList.utf8Encode := by
  rw [← String.toByteArray_ofList, String.ofList_toList]

theorem length_flatMap_encode (text : String) :
    (text.toList.flatMap String.utf8EncodeChar).length = text.utf8ByteSize := by
  rw [← String.size_toByteArray, toByteArray_eq_utf8Encode]
  simp [List.utf8Encode]

/-- The bytes of a source are as many as it holds of the encodings of its characters, one after the
other. -/
theorem bytes_eq_take_flatMap (source : Source) :
    source.bytes = (source.text.toList.flatMap String.utf8EncodeChar).take source.size := by
  rw [bytes, toByteArray_eq_utf8Encode]
  simp [List.utf8Encode]

/-- The bytes of a text that is held as a whole are the encodings of its characters. -/
theorem Fits.bytes_eq_flatMap {source : Source} (hfits : source.Fits) :
    source.bytes = source.text.toList.flatMap String.utf8EncodeChar := by
  rw [bytes_eq_take_flatMap, hfits.size_eq, ← length_flatMap_encode, List.take_length]

theorem length_bytes (source : Source) : source.bytes.length = source.size := by
  rw [bytes_eq_take_flatMap, List.length_take, length_flatMap_encode]
  exact Nat.min_eq_left source.size_le_utf8ByteSize

theorem getElem?_bytes_of_lt {source : Source} {offset : Nat} (hoffset : offset < source.size) :
    source.bytes[offset]? = some (source.byteAt offset) := by
  rw [byteAt, dif_pos hoffset, String.getUTF8Byte_eq_getElem, bytes,
    List.getElem?_take_of_lt hoffset, Array.getElem?_toList]
  exact Array.getElem?_eq_getElem (lt_rawEndPos hoffset)

/-- The bytes held stand in the encoding of the text at the same offsets. -/
theorem getElem?_flatMap_of_lt {source : Source} {offset : Nat} (hoffset : offset < source.size) :
    (source.text.toList.flatMap String.utf8EncodeChar)[offset]? = some (source.byteAt offset) := by
  rw [← getElem?_bytes_of_lt hoffset, bytes_eq_take_flatMap, List.getElem?_take_of_lt hoffset]

theorem byteAt_eq_getD (source : Source) (offset : Nat) :
    source.byteAt offset = source.bytes[offset]?.getD 0 := by
  by_cases hoffset : offset < source.size
  · rw [getElem?_bytes_of_lt hoffset, Option.getD_some]
  · have hnone : source.bytes[offset]? = none :=
      List.getElem?_eq_none (source.length_bytes ▸ Nat.not_lt.mp hoffset)
    rw [hnone, byteAt, dif_neg hoffset, Option.getD_none]

theorem Fits.add_leadWidth_le_size {source : Source} (hfits : source.Fits) {offset : Nat}
    (hoffset : offset < source.size) : offset + leadWidth (source.byteAt offset) ≤ source.size := by
  rw [hfits.size_eq, ← length_flatMap_encode]
  exact add_leadWidth_le_length _ (getElem?_flatMap_of_lt hoffset)

theorem Fits.next_of_lt {source : Source} (hfits : source.Fits) {offset : Nat}
    (hoffset : offset < source.size) :
    source.next offset = offset + leadWidth (source.byteAt offset) := by
  rw [next, if_pos hoffset]
  exact Nat.min_eq_left (hfits.add_leadWidth_le_size hoffset)

/-- Every character of a text that is held as a whole can be passed. -/
theorem Fits.overflow?_eq_none {source : Source} (hfits : source.Fits) (offset : Nat) :
    source.overflow? offset = none := by
  rw [overflow?, if_neg]
  rintro ⟨hoffset, hoverflow⟩
  have hle := hfits.add_leadWidth_le_size hoffset
  have hlt := source.size_lt
  omega

/-- The bytes of a source that one step passes over are at least `0x80`. -/
theorem le_byteAt_of_lt_next {source : Source} {offset passed : Nat} (hlt : offset < passed)
    (hnext : passed < source.next offset) : 0x80 ≤ source.byteAt passed := by
  have hoffset : offset < source.size := by
    by_cases hoffset : offset < source.size
    · exact hoffset
    · rw [next, if_neg hoffset] at hnext
      omega
  have hpassed : passed < source.size := Nat.lt_of_lt_of_le hnext (next_le hoffset)
  rw [next, if_pos hoffset] at hnext
  exact le_of_getElem?_encode _ (getElem?_flatMap_of_lt hoffset) hlt (by omega)
    (getElem?_flatMap_of_lt hpassed)

/-! ### Search for ASCII bytes -/

theorem find_of_stop {source : Source} {stop : UInt8 → Bool} {offset : Nat}
    (hstop : stop (source.byteAt offset) = true) : source.find stop offset = offset := by
  rw [find]
  simp [hstop]

theorem find_of_le {source : Source} {stop : UInt8 → Bool} {offset : Nat}
    (hoffset : source.size ≤ offset) : source.find stop offset = offset := by
  rw [find, if_neg (by omega)]

theorem find_succ {source : Source} {stop : UInt8 → Bool} {offset : Nat}
    (hoffset : offset < source.size) (hstop : stop (source.byteAt offset) = false) :
    source.find stop offset = source.find stop (offset + 1) := by
  rw [find]
  simp [hoffset, hstop]

theorem le_find (source : Source) (stop : UInt8 → Bool) (offset : Nat) :
    offset ≤ source.find stop offset := by
  fun_induction find source stop offset with
  | case1 offset hoffset hstop => exact Nat.le_refl offset
  | case2 offset hoffset hstop ih => omega
  | case3 offset hoffset => exact Nat.le_refl offset

theorem find_le {source : Source} {stop : UInt8 → Bool} {offset : Nat}
    (hoffset : offset ≤ source.size) : source.find stop offset ≤ source.size := by
  fun_induction find source stop offset with
  | case1 offset hlt hstop => exact hoffset
  | case2 offset hlt hstop ih => exact ih hlt
  | case3 offset hend => exact hoffset

/-- There is no stop in front of the one that a search finds. -/
theorem stop_eq_false_of_lt_find {source : Source} {stop : UInt8 → Bool} {offset passed : Nat}
    (hle : offset ≤ passed) (hlt : passed < source.find stop offset) :
    stop (source.byteAt passed) = false := by
  fun_induction find source stop offset with
  | case1 offset hoffset hstop => omega
  | case2 offset hoffset hstop ih =>
    rcases Nat.eq_or_lt_of_le hle with rfl | hpassed
    · simpa using hstop
    · exact ih hpassed hlt
  | case3 offset hoffset => omega

/-- A search that does not reach the end of the text has found a stop. -/
theorem stop_byteAt_find {source : Source} {stop : UInt8 → Bool} {offset : Nat}
    (hfind : source.find stop offset < source.size) :
    stop (source.byteAt (source.find stop offset)) = true := by
  fun_induction find source stop offset with
  | case1 offset hoffset hstop => exact hstop
  | case2 offset hoffset hstop ih => exact ih hfind
  | case3 offset hoffset => exact absurd hfind hoffset

/-- A stretch without a stop does not change what a search finds. -/
theorem find_of_forall_lt {source : Source} {stop : UInt8 → Bool} {first last : Nat}
    (hle : first ≤ last) (hlast : last ≤ source.size)
    (hstretch : ∀ offset, first ≤ offset → offset < last → stop (source.byteAt offset) = false) :
    source.find stop first = source.find stop last := by
  obtain ⟨length, rfl⟩ := Nat.exists_eq_add_of_le hle
  induction length generalizing first with
  | zero => rfl
  | succ length ih =>
    rw [find_succ (by omega) (hstretch first (Nat.le_refl _) (by omega))]
    have hshift : first + (length + 1) = first + 1 + length := by omega
    rw [hshift] at hlast hstretch ⊢
    exact ih (by omega) hlast fun offset hoffset hlt ↦ hstretch offset (by omega) hlt

/-- Assumes: bytes of at least `0x80` are no stops, and there is no stop at `offset`. A search finds
from `offset` what it finds from the next character. -/
theorem find_next {source : Source} {stop : UInt8 → Bool} {offset : Nat}
    (hascii : ∀ byte, 0x80 ≤ byte → stop byte = false) (hoffset : offset < source.size)
    (hstop : stop (source.byteAt offset) = false) :
    source.find stop offset = source.find stop (source.next offset) := by
  refine find_of_forall_lt (Nat.le_of_lt (lt_next hoffset)) (next_le hoffset) ?_
  intro passed hle hlt
  rcases Nat.eq_or_lt_of_le hle with rfl | hpassed
  · exact hstop
  · exact hascii _ (le_byteAt_of_lt_next hpassed hlt)

end Source

end GrammarFragments
