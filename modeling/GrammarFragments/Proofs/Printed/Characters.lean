import GrammarFragments.Proofs.Spans.Boundaries

/-!
The characters of a text as a reader over its bytes reports them. Every character is reported by the
first byte of its encoding, so the characters still to be read are the leading bytes of the
characters behind the offset, and in a text that fits their number gives the offset away
(`eq_encodedSize_of_length`).

An ASCII character is its own leading byte, and every other leading byte lies outside of ASCII. So a
class of ASCII bytes is a class of characters, and it is enough to compare the two on the 128
characters of ASCII (`accept_leadByte`).
-/

set_option autoImplicit false
set_option relaxedAutoImplicit false

namespace GrammarFragments

namespace Source

/-! ### Places in a text -/

/-- Assumes: a text that fits, and an offset between characters with as many characters behind it as
`back` has. It is the offset behind `front`. -/
theorem Fits.eq_encodedSize_of_length {source : Source} (hfits : source.Fits)
    {front back : List Char} {offset : Nat} (htext : source.text.toList = front ++ back)
    (hboundary : source.IsBoundary offset)
    (hlength : (source.charsFrom offset).length = back.length) : offset = encodedSize front := by
  obtain ⟨index, before, behind, hsplit, -, rfl⟩ := isBoundary_iff_exists_isCharIndex.mp hboundary
  rw [hfits.charsFrom_encodedSize hsplit, reported, List.length_map] at hlength
  have hsame := List.append_inj_left' (hsplit.symm.trans htext) hlength
  rw [hsame]

/-! ### Characters of ASCII -/

theorem leadByte_of_lt {char : Char} (hascii : char.toNat < 0x80) :
    leadByte char = char.val.toUInt8 := by
  have hsize : char.utf8Size = 1 := by
    rw [Char.utf8Size_eq_one_iff, UInt32.le_iff_toNat_le]
    exact Nat.lt_succ_iff.mp hascii
  rw [leadByte, String.utf8EncodeChar_eq_singleton hsize, List.headD_cons]

theorem toNat_leadByte_of_lt {char : Char} (hascii : char.toNat < 0x80) :
    (leadByte char).toNat = char.toNat := by
  rw [leadByte_of_lt hascii, UInt32.toNat_toUInt8]
  exact Nat.mod_eq_of_lt (Nat.lt_trans hascii (by decide))

/-- The leading byte of a character outside of ASCII lies outside of it, too. -/
theorem le_leadByte {char : Char} (houtside : 0x80 ≤ char.toNat) : 0x80 ≤ leadByte char := by
  obtain ⟨lead, trailing, hencode, hwidth, -⟩ := exists_lead_trailing char
  have halike := alike_lead_reportedByte hencode hwidth
  have hreported : HostLexer.reportedByte char.toNat = 0x80 := by
    rw [HostLexer.reportedByte, if_neg (by omega)]
  rw [leadByte, hencode, List.headD_cons]
  rcases halike with hsame | hboth
  · rw [hsame, hreported]
    exact UInt8.le_refl _
  · exact hboth.1

/-- The leading byte tells an ASCII character from every other character. -/
theorem leadByte_eq_iff {char : Char} (ascii : Char) (hascii : ascii.toNat < 0x80) :
    leadByte char = leadByte ascii ↔ char = ascii := by
  constructor
  · intro hsame
    have hbyte := toNat_leadByte_of_lt hascii
    rw [← hsame] at hbyte
    by_cases hchar : char.toNat < 0x80
    · rw [toNat_leadByte_of_lt hchar] at hbyte
      exact Char.toNat_inj.mp hbyte
    · have houtside := UInt8.le_iff_toNat_le.mp (le_leadByte (Nat.not_lt.mp hchar))
      simp only [UInt8.reduceToNat] at houtside
      omega
  · rintro rfl
    rfl

/-- The leading bytes tell a text of ASCII characters from every other text. -/
theorem reported_eq_iff {chars ascii : List Char} (hascii : ∀ char ∈ ascii, char.toNat < 0x80) :
    reported chars = reported ascii ↔ chars = ascii := by
  induction ascii generalizing chars with
  | nil => rw [reported, reported, List.map_nil, List.map_eq_nil_iff]
  | cons first ascii ih =>
    rw [List.forall_mem_cons] at hascii
    cases chars with
    | nil => exact iff_of_false (List.cons_ne_nil _ _).symm (List.cons_ne_nil _ _).symm
    | cons char chars =>
      rw [reported_cons, reported_cons, List.cons.injEq, List.cons.injEq,
        leadByte_eq_iff first hascii.1, ih hascii.2]

/-- Assumes: a class of ASCII bytes and a class of characters that agree on ASCII, where the second
holds no other characters. A character is in its class exactly when its leading byte is in the other
one. -/
theorem accept_leadByte {accept : UInt8 → Bool} {holds : Char → Bool} (haccept : AsciiOnly accept)
    (hholds : ∀ char : Char, holds char = true → char.toNat < 0x80)
    (hagree : ∀ code : Fin 0x80, accept code.val.toUInt8 = holds (Char.ofNat code))
    (char : Char) : accept (leadByte char) = holds char := by
  by_cases hascii : char.toNat < 0x80
  · have hcode := hagree ⟨char.toNat, hascii⟩
    rw [Char.ofNat_toNat] at hcode
    rw [leadByte_of_lt hascii]
    exact hcode
  · rw [haccept _ (le_leadByte (Nat.not_lt.mp hascii))]
    cases hchar : holds char with
    | false => rfl
    | true => exact absurd (hholds char hchar) hascii

end Source

end GrammarFragments
