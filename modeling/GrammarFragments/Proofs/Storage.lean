import GrammarFragments.Reader.Bytes

/-!
The block of storage that holds a text, written out: the bytes of the text and then zeros. Its
length is rounded up to whole lines, which for a power of two is the same by a mask as by division
(`capacity_eq_mask`). A read gives what stands in the block (`toOption_read`).

Reading one byte ahead needs a second byte behind the text when the reader stands at its end. The
closing zero is there for every text, the padding is not: a text that is one byte short of whole
lines fills them up together with its closing zero. From every other place the byte ahead is that of
the text, or zero behind it (`readAhead_inside_storage`).
-/

set_option autoImplicit false
set_option relaxedAutoImplicit false

namespace GrammarFragments

namespace Source

variable {source : Source} {offset : Nat}

/-- The block of storage: the bytes of the text, and zeros up to the capacity. -/
def storage (source : Source) : List UInt8 :=
  source.bytes ++ List.replicate (source.capacity - source.size) 0

theorem size_lt_capacity (source : Source) : source.size < source.capacity := by
  unfold capacity lineSize
  omega

theorem length_storage (source : Source) : source.storage.length = source.capacity := by
  have hsize := source.size_lt_capacity
  rw [storage, List.length_append, List.length_replicate, length_bytes]
  omega

theorem getElem?_storage_of_lt (hoffset : offset < source.capacity) :
    source.storage[offset]? = some (source.byteAt offset) := by
  rcases Nat.lt_or_ge offset source.size with hinside | hbehind
  · rw [storage, List.getElem?_append_left (length_bytes source ▸ hinside),
      getElem?_bytes_of_lt hinside]
  · rw [storage, List.getElem?_append_right (length_bytes source ▸ hbehind), length_bytes,
      List.getElem?_replicate_of_lt (by omega), byteAt, dif_neg (Nat.not_lt.mpr hbehind)]

/-- A read gives the byte that stands in the block, and is refused where none stands. -/
theorem toOption_read (source : Source) (offset : Nat) :
    (source.read offset).toOption = source.storage[offset]? := by
  rw [read]
  split
  · rename_i hoffset
    rw [getElem?_storage_of_lt hoffset]
    rfl
  · rename_i hoffset
    rw [List.getElem?_eq_none (length_storage source ▸ Nat.not_lt.mp hoffset)]
    rfl

/-! ### Rounding by a mask -/

/-- A word without its low bits is rounded down to whole lines. -/
theorem toNat_and_not_line (word : UInt64) :
    (word &&& ~~~(lineSize - 1).toUInt64).toNat = word.toNat / lineSize * lineSize := by
  have hmask : (~~~(lineSize - 1).toUInt64).toBitVec = BitVec.allOnes 64 <<< 6 := by decide
  have hlt : word.toNat / lineSize * lineSize < 2 ^ 64 :=
    Nat.lt_of_le_of_lt (Nat.div_mul_le_self _ _) word.toNat_lt
  rw [← UInt64.toNat_toBitVec, UInt64.toBitVec_and, hmask, ← BitVec.shiftLeft_ushiftRight,
    BitVec.toNat_shiftLeft, BitVec.toNat_ushiftRight, UInt64.toNat_toBitVec,
    Nat.shiftRight_eq_div_pow, Nat.shiftLeft_eq]
  exact Nat.mod_eq_of_lt hlt

/-- The number of bytes held with one whole line added, without the low bits, is the capacity. -/
theorem capacity_eq_mask (source : Source) :
    source.capacity =
      ((source.size + 1 + (lineSize - 1)).toUInt64 &&& ~~~(lineSize - 1).toUInt64).toNat := by
  have hfits : source.size + 1 + (lineSize - 1) < UInt64.size := by
    have hsize := source.size_lt
    unfold lineSize
    unfold UInt32.size at hsize
    unfold UInt64.size
    omega
  rw [toNat_and_not_line, Nat.toUInt64, UInt64.toNat_ofNat_of_lt' hfits, capacity]

end Source

/-! ### The byte ahead -/

namespace ByteReader

open Source

variable {reader : ByteReader}

/-- Assumes: a reader inside of its text. The byte ahead is outside of the storage at one place
only, the end of a text that is one byte short of whole lines. -/
theorem ahead_lt_capacity_iff (hoffset : reader.offset ≤ reader.source.size) :
    reader.offset + 1 < reader.source.capacity ↔
      ¬ (reader.offset = reader.source.size ∧ reader.source.size % lineSize = lineSize - 1) := by
  unfold capacity lineSize
  omega

/-- Assumes: a reader inside of what is held of its text. The storage has the bytes held and a
closing zero, rounded up to whole lines by a mask, and the byte ahead is read from there. It lies in
the storage unless the reader stands at the end of a text that is one byte short of whole lines. If
it does, it is the byte of the text behind the one here, and zero if there is none. Otherwise the
read is refused. -/
theorem readAhead_inside_storage (reader : ByteReader)
    (hoffset : reader.offset ≤ reader.source.size) :
    let source := reader.source
    let ahead := reader.offset + 1
    source.storage.length =
        ((source.size + 1 + (lineSize - 1)).toUInt64 &&& ~~~(lineSize - 1).toUInt64).toNat ∧
      reader.readAhead.toOption = source.storage[ahead]? ∧
      (ahead < source.storage.length ↔
        ¬ (reader.offset = source.size ∧ source.size % lineSize = lineSize - 1)) ∧
      (ahead < source.storage.length →
        (∀ hahead : ahead < source.bytes.length, reader.readAhead = .ok source.bytes[ahead]) ∧
        (source.bytes.length ≤ ahead → reader.readAhead = .ok 0)) ∧
      (source.storage.length ≤ ahead →
        reader.readAhead = .error ⟨source.size + 1, source.size + 1⟩) := by
  intro source ahead
  have hcapacity := ahead_lt_capacity_iff hoffset
  rw [length_storage]
  refine ⟨capacity_eq_mask source, toOption_read source ahead, hcapacity, ?_, ?_⟩
  · intro hinside
    have hread : reader.readAhead = .ok (source.byteAt ahead) := if_pos hinside
    rw [hread, byteAt_eq_getD]
    constructor
    · intro hahead
      rw [List.getElem?_eq_getElem hahead, Option.getD_some]
    · intro hbehind
      rw [List.getElem?_eq_none hbehind, Option.getD_none]
  · intro houtside
    -- The closing zero is the last byte of the block, which is one byte longer than the text.
    have hend : reader.offset ≤ source.size := hoffset
    have hsmall := source.size_lt_capacity
    have hfull : source.capacity = source.size + 1 ∧ ahead = source.size + 1 := by omega
    have hread : reader.readAhead = .error ⟨source.capacity, ahead⟩ :=
      if_neg (Nat.not_lt.mpr houtside)
    rw [hread, hfull.1, hfull.2]

/-- In front of the last byte of a text of 63 bytes the byte ahead is read. It is the closing
zero. -/
theorem readAhead_inside_storage_witness :
    let source : Source := ⟨"(* seven times nine bytes of text, and none is left for padding"⟩
    let reader := source.readerAt 62
    source.size = 63 ∧ reader.offset ≤ source.size ∧
      reader.readAhead = .ok 0 := by
  intro source reader
  have hoffset : reader.offset ≤ reader.source.size := by decide +kernel
  have hread := (readAhead_inside_storage reader hoffset).2.2.2.1 (by decide +kernel)
  exact ⟨by decide +kernel, hoffset, hread.2 (by decide +kernel)⟩

/-- At the end of such a text the read is refused. -/
theorem readAhead_refused :
    let source : Source := ⟨"(* seven times nine bytes of text, and none is left for padding"⟩
    let reader := source.readerAt 63
    reader.offset ≤ source.size ∧ source.storage.length ≤ reader.offset + 1 ∧
      reader.readAhead = .error ⟨64, 64⟩ := by
  intro source reader
  have hcapacity : source.capacity = 64 := by decide +kernel
  have hahead : reader.offset + 1 = 64 := by decide +kernel
  refine ⟨by decide +kernel, ?_, ?_⟩
  · have hlength : source.storage.length = reader.offset + 1 := by
      rw [length_storage, hcapacity, hahead]
    exact Nat.le_of_eq hlength
  · have hread : source.read 64 = .error ⟨source.capacity, 64⟩ :=
      if_neg (Nat.not_lt.mpr (Nat.le_of_eq hcapacity))
    rw [readAhead, hahead]
    exact hcapacity ▸ hread

end ByteReader

end GrammarFragments
