import GrammarFragments.Reader.Basic

/-!
Character literals inside embedded text. After an apostrophe a literal may follow, or the apostrophe
may be that of a type variable; a probe finds out, and what it has passed stays passed.

The body of a literal is one character, or a backslash with three decimal digits, with `x` and two
hexadecimal digits, with `o` and three octal digits, or with one of the characters of
`simpleEscape?`. The three decimal digits are weighed by powers of eight, so `\061` is the digit
one. When the probe passes a plain character and no apostrophe follows, it hands that character
back: the caller has to treat it as its next one.

Main statements: a probe leaves a suffix of the rest, and it hands a character back only if it has
passed one (`length_rest_probe_lt`).
-/

set_option autoImplicit false
set_option relaxedAutoImplicit false

namespace GrammarFragments

/-- The result of a probe for a character literal. The value is zero when the literal is not well
formed, when its character is outside of ASCII, and when a numeric escape is above 255. -/
structure CharLiteral where
  /-- The closing apostrophe was there and was passed. -/
  closed : Bool
  /-- The literal is closed and its body is one character or one valid escape. -/
  wellFormed : Bool
  value : UInt8
  /-- A plain character that was passed although no closing apostrophe followed it. -/
  pending : Option UInt8
  deriving DecidableEq, Repr

namespace CharLiteral

/-- The result of a probe that found no literal. -/
def absent : CharLiteral := ⟨false, false, 0, none⟩

/-- What stands between the apostrophes. -/
inductive Body
  | escape (value : UInt8)
  | plain (byte : UInt8)
  | empty
  /-- An invalid escape, or the end of the text. -/
  | malformed
  deriving DecidableEq, Repr

/-- The value of an escape by one character. -/
def simpleEscape? (byte : UInt8) : Option UInt8 :=
  if byte = Ascii.backslash ∨ byte = Ascii.apostrophe ∨ byte = Ascii.doubleQuote ∨ byte = 0x20 then
    some byte
  else if byte = 0x6E then some 0x0A
  else if byte = 0x74 then some 0x09
  else if byte = 0x62 then some 0x08
  else if byte = 0x72 then some 0x0D
  else none

/-- The body that a numeric escape stands for: values above 255 become zero. -/
def numericBody : Option Nat → Body
  | some value => .escape (if value ≤ 255 then value.toUInt8 else 0)
  | none => .malformed

open Reader

variable {ρ : Type} [Reader ρ]

/-- Passes up to `count` digits and adds their value in the given base to what was read before them.
It stops in front of the first character that is no digit, with no value. -/
def readDigits (accept : UInt8 → Bool) (base : Nat) : Nat → Nat → ρ → Option Nat × ρ
  | 0, value, reader => (some value, reader)
  | count + 1, value, reader =>
    if accept (current reader) then
      readDigits accept base count (value * base + digitValue (current reader)) (advance reader)
    else (none, reader)

/-- Reads an escape whose backslash has been passed. -/
def readEscape (reader : ρ) : Body × ρ :=
  let first := current reader
  if isDecimalDigit first then
    let (value?, stopped) := readDigits isDecimalDigit 8 3 0 reader
    (numericBody value?, stopped)
  else if first = 0x78 then
    let (value?, stopped) := readDigits isHexDigit 16 2 0 (advance reader)
    (numericBody value?, stopped)
  else if first = 0x6F then
    let (value?, stopped) := readDigits isOctalDigit 8 3 0 (advance reader)
    (numericBody value?, stopped)
  else
    match simpleEscape? first with
    | some value => (.escape value, advance reader)
    | none => (.malformed, reader)

/-- Reads the body of a literal whose opening apostrophe has been passed. -/
def readBody (reader : ρ) : Body × ρ :=
  if atEnd reader then (.malformed, reader)
  else if current reader = Ascii.backslash then readEscape (advance reader)
  else if current reader = Ascii.apostrophe then (.empty, reader)
  else (.plain (current reader), advance reader)

/-- The literal with a given body and a closing apostrophe. -/
def ofBody : Body → CharLiteral
  | .escape value => ⟨true, true, value, none⟩
  | .plain byte => ⟨true, true, if byte < 0x80 then byte else 0, none⟩
  | .empty => ⟨true, false, 0, none⟩
  | .malformed => absent

/-- The result for a body without a closing apostrophe. -/
def ofUnclosed : Body → CharLiteral
  | .plain byte => { absent with pending := some byte }
  | _ => absent

/-- Probes for a character literal after its opening apostrophe. -/
def probe (reader : ρ) : CharLiteral × ρ :=
  let (body, stopped) := readBody reader
  if body = .malformed then (absent, stopped)
  else if current stopped = Ascii.apostrophe then (ofBody body, advance stopped)
  else (ofUnclosed body, stopped)

/-! ### What a probe passes -/

theorem rest_readDigits_suffix (accept : UInt8 → Bool) (base count value : Nat) (reader : ρ) :
    rest (readDigits accept base count value reader).2 <:+ rest reader := by
  induction count generalizing value reader with
  | zero => exact List.suffix_rfl
  | succ count ih =>
    rw [readDigits]
    split
    · exact (ih _ _).trans (rest_advance_suffix reader)
    · exact List.suffix_rfl

theorem rest_readEscape_suffix (reader : ρ) : rest (readEscape reader).2 <:+ rest reader := by
  rw [readEscape]
  split
  · exact rest_readDigits_suffix _ _ _ _ reader
  · split
    · exact (rest_readDigits_suffix _ _ _ _ _).trans (rest_advance_suffix reader)
    · split
      · exact (rest_readDigits_suffix _ _ _ _ _).trans (rest_advance_suffix reader)
      · split
        · exact rest_advance_suffix reader
        · exact List.suffix_rfl

theorem rest_readBody_suffix (reader : ρ) : rest (readBody reader).2 <:+ rest reader := by
  rw [readBody]
  split
  · exact List.suffix_rfl
  · split
    · exact (rest_readEscape_suffix _).trans (rest_advance_suffix reader)
    · split
      · exact List.suffix_rfl
      · exact rest_advance_suffix reader

theorem rest_probe_suffix (reader : ρ) : rest (probe reader).2 <:+ rest reader := by
  simp only [probe]
  split
  · exact rest_readBody_suffix reader
  · split
    · exact (rest_advance_suffix _).trans (rest_readBody_suffix reader)
    · exact rest_readBody_suffix reader

theorem exists_plain_of_pending {body : Body} (hpending : (ofUnclosed body).pending.isSome) :
    ∃ byte, body = .plain byte := by
  cases body with
  | plain byte => exact ⟨byte, rfl⟩
  | escape value => simp [ofUnclosed, absent] at hpending
  | empty => simp [ofUnclosed, absent] at hpending
  | malformed => simp [ofUnclosed, absent] at hpending

theorem numericBody_ne_plain (value? : Option Nat) (byte : UInt8) :
    numericBody value? ≠ .plain byte := by
  cases value? <;> simp [numericBody]

theorem readEscape_ne_plain (reader : ρ) (byte : UInt8) : (readEscape reader).1 ≠ .plain byte := by
  rw [readEscape]
  split
  · exact numericBody_ne_plain _ _
  · split
    · exact numericBody_ne_plain _ _
    · split
      · exact numericBody_ne_plain _ _
      · split <;> simp

theorem length_rest_readBody_lt {reader : ρ} {byte : UInt8}
    (hbody : (readBody reader).1 = .plain byte) :
    (rest (readBody reader).2).length < (rest reader).length := by
  rw [readBody] at hbody ⊢
  split at hbody
  · simp at hbody
  · rename_i hend
    rw [if_neg hend]
    split at hbody
    · exact absurd hbody (readEscape_ne_plain _ _)
    · rename_i hescape
      rw [if_neg hescape]
      split at hbody
      · simp at hbody
      · rename_i hempty
        rw [if_neg hempty]
        exact length_rest_advance_lt (by simpa using hend)

/-- A probe that hands a character back has passed it. -/
theorem length_rest_probe_lt {reader : ρ} (hpending : (probe reader).1.pending.isSome) :
    (rest (probe reader).2).length < (rest reader).length := by
  simp only [probe] at hpending ⊢
  split at hpending
  · simp [absent] at hpending
  · rename_i hbody
    rw [if_neg hbody]
    split at hpending
    · cases hclosed : (readBody reader).1 <;> simp [hclosed, ofBody, absent] at hpending
    · rename_i hquote
      rw [if_neg hquote]
      obtain ⟨byte, hplain⟩ := exists_plain_of_pending hpending
      exact length_rest_readBody_lt hplain

end CharLiteral

end GrammarFragments
