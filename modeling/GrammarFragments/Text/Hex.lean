/-!
Numbers written with lower-case hexadecimal digits behind `0x`.
-/

set_option autoImplicit false
set_option relaxedAutoImplicit false

namespace GrammarFragments

/-- The hexadecimal text of a number, with as few digits as it needs. -/
def hexText (number : Nat) : String := "0x" ++ String.ofList (Nat.toDigits 16 number)

/-- The hexadecimal text of a byte, always with two digits. -/
def hexByteText (byte : UInt8) : String :=
  "0x" ++ String.ofList ((if byte < 0x10 then ['0'] else []) ++ Nat.toDigits 16 byte.toNat)

end GrammarFragments
