import GrammarFragments.Ascii

/-!
A source is a text held as UTF-8 bytes and addressed by byte offsets. Offsets are numbers of 32
bits, so of a longer text only the bytes that they reach are held: the text is cut, be it inside of
a character. A text that is held as a whole fits (`Fits`). Offsets past the end read as zero. The
bytes lie in a block of storage that is one byte longer than what is held of the text, rounded up to
whole lines of 64 bytes; a read is refused only outside of that block.

The bytes of one character are passed over together: the leading byte tells how many there are. From
an offset inside a character the trailing bytes are passed one by one, so every walk reaches the
next character. If the text was cut inside of its last character, the width of that character leads
past all offsets, and the sum of the two overflows (`overflow?`).
-/

set_option autoImplicit false
set_option relaxedAutoImplicit false

namespace GrammarFragments

/-- A text to be scanned. -/
structure Source where
  text : String

namespace Source

/-- The largest number of bytes that is held of a text. -/
def sizeLimit : Nat := UInt32.size - 1

/-- The number of bytes held: the length of the text, or as much of it as can be addressed. -/
@[inline]
def size (source : Source) : Nat := min source.text.utf8ByteSize sizeLimit

/-- The text is held as a whole. -/
def Fits (source : Source) : Prop := source.text.utf8ByteSize < UInt32.size

instance (source : Source) : Decidable source.Fits :=
  inferInstanceAs (Decidable (source.text.utf8ByteSize < UInt32.size))

theorem size_lt (source : Source) : source.size < UInt32.size :=
  Nat.lt_of_le_of_lt (Nat.min_le_right _ _) (by decide)

theorem size_le_utf8ByteSize (source : Source) : source.size ≤ source.text.utf8ByteSize :=
  Nat.min_le_left _ _

theorem Fits.size_eq {source : Source} (hfits : source.Fits) :
    source.size = source.text.utf8ByteSize :=
  Nat.min_eq_left (Nat.le_pred_of_lt hfits)

theorem lt_rawEndPos {source : Source} {offset : Nat} (hoffset : offset < source.size) :
    (⟨offset⟩ : String.Pos.Raw) < source.text.rawEndPos :=
  Nat.lt_of_lt_of_le hoffset source.size_le_utf8ByteSize

/-- The byte at an offset, and zero past the end. -/
@[inline]
def byteAt (source : Source) (offset : Nat) : UInt8 :=
  if hoffset : offset < source.size then
    source.text.getUTF8Byte ⟨offset⟩ (lt_rawEndPos hoffset)
  else 0

/-- The bytes held of the text. -/
def bytes (source : Source) : List UInt8 :=
  source.text.toByteArray.data.toList.take source.size

/-! ### Storage -/

/-- The number of bytes of one line of storage. -/
def lineSize : Nat := 64

/-- The size of the block of storage: the bytes held and one closing zero, rounded up to whole
lines. -/
def capacity (source : Source) : Nat :=
  (source.size + 1 + (lineSize - 1)) / lineSize * lineSize

/-- A read outside of a block of storage. -/
structure OutOfBounds where
  capacity : Nat
  offset : Nat
  deriving DecidableEq, Repr

/-- The wording of a refused read. -/
def OutOfBounds.message (refused : OutOfBounds) : String :=
  s!"index out of bounds: the len is {refused.capacity} but the index is {refused.offset}"

/-- Reads one byte of the block of storage, which holds zeros after the bytes of the text. -/
def read (source : Source) (offset : Nat) : Except OutOfBounds UInt8 :=
  if offset < source.capacity then .ok (source.byteAt offset)
  else .error ⟨source.capacity, offset⟩

/-! ### Characters -/

/-- The number of bytes of the character that starts with `byte`; a byte that starts no character
stands alone. -/
def leadWidth (byte : UInt8) : Nat :=
  if byte < 0xC0 then 1
  else if byte < 0xE0 then 2
  else if byte < 0xF0 then 3
  else if byte < 0xF8 then 4
  else 1

/-- The offset after the character at `offset`. It is never past the end, and at the end it stays
where it is. -/
def next (source : Source) (offset : Nat) : Nat :=
  if offset < source.size then min (offset + leadWidth (source.byteAt offset)) source.size
  else offset

/-- The offset itself if the character there cannot be passed, because its width leads past all
numbers of 32 bits. -/
def overflow? (source : Source) (offset : Nat) : Option Nat :=
  if offset < source.size ∧ UInt32.size ≤ offset + leadWidth (source.byteAt offset) then some offset
  else none

theorem overflow?_of_le {source : Source} {offset : Nat} (hoffset : source.size ≤ offset) :
    source.overflow? offset = none := by
  rw [overflow?, if_neg (by omega)]

theorem leadWidth_pos (byte : UInt8) : 0 < leadWidth byte := by
  unfold leadWidth
  repeat' split
  all_goals decide

theorem lt_next {source : Source} {offset : Nat} (hoffset : offset < source.size) :
    offset < source.next offset := by
  have hwidth := leadWidth_pos (source.byteAt offset)
  rw [next, if_pos hoffset]
  omega

theorem next_of_le {source : Source} {offset : Nat} (hoffset : source.size ≤ offset) :
    source.next offset = offset := by
  rw [next, if_neg (by omega)]

theorem le_next (source : Source) (offset : Nat) : offset ≤ source.next offset := by
  rcases Nat.lt_or_ge offset source.size with hoffset | hoffset
  · exact Nat.le_of_lt (lt_next hoffset)
  · exact Nat.le_of_eq (next_of_le hoffset).symm

theorem next_le {source : Source} {offset : Nat} (hoffset : offset < source.size) :
    source.next offset ≤ source.size := by
  rw [next, if_pos hoffset]
  omega

theorem next_le_size {source : Source} {offset : Nat} (hoffset : offset ≤ source.size) :
    source.next offset ≤ source.size := by
  rcases Nat.lt_or_ge offset source.size with hlt | hge
  · exact next_le hlt
  · rw [next_of_le hge]
    exact hoffset

/-- The characters met on a walk from `offset` to the end, each by its first byte. -/
def charsFrom (source : Source) (offset : Nat) : List UInt8 :=
  if offset < source.size then source.byteAt offset :: source.charsFrom (source.next offset)
  else []
termination_by source.size - offset
decreasing_by
  have hlt : offset < source.next offset := lt_next (by assumption)
  omega

theorem charsFrom_of_lt {source : Source} {offset : Nat} (hoffset : offset < source.size) :
    source.charsFrom offset = source.byteAt offset :: source.charsFrom (source.next offset) := by
  rw [charsFrom, if_pos hoffset]

theorem charsFrom_of_le {source : Source} {offset : Nat} (hoffset : source.size ≤ offset) :
    source.charsFrom offset = [] := by
  rw [charsFrom, if_neg (by omega)]

/-! ### Search and substrings -/

/-- The offset of the first byte at or after `offset` that `stop` accepts, or the end. Bytes are
looked at one by one, whatever characters they belong to. -/
@[specialize]
def find (source : Source) (stop : UInt8 → Bool) (offset : Nat) : Nat :=
  if offset < source.size then
    if stop (source.byteAt offset) then offset else source.find stop (offset + 1)
  else offset
termination_by source.size - offset

/-- The text between two offsets, cut down to the bytes held, and the empty text if that range of
bytes is no range of whole characters. -/
def slice (source : Source) (start stop : Nat) : String :=
  let last := min stop source.size
  let first := min start last
  (String.fromUTF8? (source.text.toByteArray.extract first last)).getD ""

end Source

end GrammarFragments
