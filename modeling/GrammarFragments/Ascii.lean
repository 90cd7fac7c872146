/-!
The ASCII characters with a meaning inside a grammar file, and the four classes of bytes on which
the recognizers branch: the start and the continuation of a word, the bytes of a quoted-text tag,
and blanks. A byte of a character outside ASCII is at least `0x80`, so it is in none of them and is
none of the named characters.
-/

set_option autoImplicit false
set_option relaxedAutoImplicit false

namespace GrammarFragments

namespace Ascii

abbrev doubleQuote : UInt8 := 0x22
abbrev percent : UInt8 := 0x25
abbrev apostrophe : UInt8 := 0x27
abbrev parenOpen : UInt8 := 0x28
abbrev parenClose : UInt8 := 0x29
abbrev star : UInt8 := 0x2A
abbrev minus : UInt8 := 0x2D
abbrev greater : UInt8 := 0x3E
abbrev bracketOpen : UInt8 := 0x5B
abbrev backslash : UInt8 := 0x5C
abbrev bracketClose : UInt8 := 0x5D
abbrev underscore : UInt8 := 0x5F
abbrev braceOpen : UInt8 := 0x7B
abbrev bar : UInt8 := 0x7C
abbrev braceClose : UInt8 := 0x7D

end Ascii

/-! ### Classes of bytes -/

/-- The bytes of the ASCII characters. -/
def isAscii (byte : UInt8) : Bool := byte < 0x80

theorem lt_of_isAscii {byte : UInt8} (hascii : isAscii byte = true) : byte < 0x80 :=
  of_decide_eq_true hascii

/-- A class of bytes that holds no byte outside of ASCII. -/
def AsciiOnly (accept : UInt8 → Bool) : Prop := ∀ byte, 0x80 ≤ byte → accept byte = false

/-- A byte outside of ASCII is no ASCII byte. -/
theorem ne_ascii_of_le {byte : UInt8} (hbyte : 0x80 ≤ byte) (ascii : UInt8)
    (hascii : isAscii ascii = true) : byte ≠ ascii := by
  rintro rfl
  exact UInt8.not_le.mpr (lt_of_isAscii hascii) hbyte

/-- A byte of a class is none of those that the class leaves out. -/
theorem ne_of_accept {accept : UInt8 → Bool} {byte other : UInt8} (hbyte : accept byte = true)
    (hother : accept other = false) : byte ≠ other := by
  rintro rfl
  exact Bool.false_ne_true (hother.symm.trans hbyte)

namespace AsciiOnly

theorem isAscii_of_accept {accept : UInt8 → Bool} (honly : AsciiOnly accept) {byte : UInt8}
    (haccept : accept byte = true) : isAscii byte = true := by
  refine decide_eq_true (UInt8.not_le.mp fun houtside ↦ ?_)
  rw [honly byte houtside] at haccept
  contradiction

/-- Assumes: an upper bound within ASCII. The bytes between two bounds are ASCII. -/
theorem between (low high : UInt8) (hhigh : isAscii high = true) :
    AsciiOnly fun byte ↦ decide (low ≤ byte) && decide (byte ≤ high) := by
  intro byte hbyte
  have habove : ¬ byte ≤ high := UInt8.not_le.mpr (UInt8.lt_of_lt_of_le (lt_of_isAscii hhigh) hbyte)
  show (decide (low ≤ byte) && decide (byte ≤ high)) = false
  rw [decide_eq_false habove, Bool.and_false]

theorem single (ascii : UInt8) (hascii : isAscii ascii = true) :
    AsciiOnly fun byte ↦ byte == ascii := by
  intro byte hbyte
  rw [beq_eq_false_iff_ne]
  exact ne_ascii_of_le hbyte ascii hascii

theorem or {first second : UInt8 → Bool} (hfirst : AsciiOnly first) (hsecond : AsciiOnly second) :
    AsciiOnly fun byte ↦ first byte || second byte := by
  intro byte hbyte
  show (first byte || second byte) = false
  rw [hfirst byte hbyte, hsecond byte hbyte, Bool.or_false]

end AsciiOnly

/-- The letters `a` to `z`. -/
def isLower (byte : UInt8) : Bool := 0x61 ≤ byte && byte ≤ 0x7A

/-- The letters `A` to `Z`. -/
def isUpper (byte : UInt8) : Bool := 0x41 ≤ byte && byte ≤ 0x5A

/-- The digits `0` to `9`. -/
def isDecimalDigit (byte : UInt8) : Bool := 0x30 ≤ byte && byte ≤ 0x39

theorem asciiOnly_isDecimalDigit : AsciiOnly isDecimalDigit := .between 0x30 0x39 rfl

/-- The digits `0` to `7`. -/
def isOctalDigit (byte : UInt8) : Bool := 0x30 ≤ byte && byte ≤ 0x37

theorem asciiOnly_isOctalDigit : AsciiOnly isOctalDigit := .between 0x30 0x37 rfl

/-- The digits `0` to `9`, `a` to `f` and `A` to `F`. -/
def isHexDigit (byte : UInt8) : Bool :=
  isDecimalDigit byte || (0x61 ≤ byte && byte ≤ 0x66) || (0x41 ≤ byte && byte ≤ 0x46)

theorem asciiOnly_isHexDigit : AsciiOnly isHexDigit :=
  (asciiOnly_isDecimalDigit.or (.between 0x61 0x66 rfl)).or (.between 0x41 0x46 rfl)

/-- The value of a digit in any base up to sixteen; a byte that is no such digit counts as zero. -/
def digitValue (byte : UInt8) : Nat :=
  if isDecimalDigit byte then byte.toNat - 0x30
  else if 0x61 ≤ byte && byte ≤ 0x66 then byte.toNat - 0x61 + 10
  else if 0x41 ≤ byte && byte ≤ 0x46 then byte.toNat - 0x41 + 10
  else 0

/-- No byte outside of ASCII is a digit. -/
theorem digitValue_of_le (byte : UInt8) (hbyte : 0x80 ≤ byte) : digitValue byte = 0 := by
  have hdecimal := asciiOnly_isDecimalDigit byte hbyte
  have hlower := AsciiOnly.between 0x61 0x66 rfl byte hbyte
  have hupper := AsciiOnly.between 0x41 0x46 rfl byte hbyte
  simp only [digitValue, hdecimal, hlower, hupper, Bool.false_eq_true, if_false]

/-- A word starts with a letter or an underscore. -/
def isWordStart (byte : UInt8) : Bool :=
  isLower byte || isUpper byte || byte == Ascii.underscore

theorem asciiOnly_isWordStart : AsciiOnly isWordStart :=
  ((AsciiOnly.between 0x61 0x7A rfl).or (.between 0x41 0x5A rfl)).or (.single Ascii.underscore rfl)

/-- A word goes on with letters, digits, underscores and apostrophes, so that the apostrophe of
`x'` or of `don't` opens no character literal. -/
def isWordPart (byte : UInt8) : Bool :=
  isWordStart byte || isDecimalDigit byte || byte == Ascii.apostrophe

theorem asciiOnly_isWordPart : AsciiOnly isWordPart :=
  (asciiOnly_isWordStart.or asciiOnly_isDecimalDigit).or (.single Ascii.apostrophe rfl)

/-- The tag of a quoted text is made of lower-case letters and underscores. -/
def isTagByte (byte : UInt8) : Bool := isLower byte || byte == Ascii.underscore

theorem asciiOnly_isTagByte : AsciiOnly isTagByte :=
  (AsciiOnly.between 0x61 0x7A rfl).or (.single Ascii.underscore rfl)

/-- The six blanks skipped in front of a fragment: the space and `0x09` to `0x0D`. -/
def isBlank (byte : UInt8) : Bool := byte == 0x20 || (0x09 ≤ byte && byte ≤ 0x0D)

theorem asciiOnly_isBlank : AsciiOnly isBlank :=
  (AsciiOnly.single 0x20 rfl).or (.between 0x09 0x0D rfl)

/-- The two bytes at which the content of a string literal needs attention. -/
def isStringStop (byte : UInt8) : Bool :=
  byte == Ascii.doubleQuote || byte == Ascii.backslash

theorem asciiOnly_isStringStop : AsciiOnly isStringStop :=
  (AsciiOnly.single Ascii.doubleQuote rfl).or (.single Ascii.backslash rfl)

end GrammarFragments
