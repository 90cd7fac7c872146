import Mathlib.Data.List.Basic
import Mathlib.Tactic.SplitIfs
import GrammarFragments.Proofs.Simulation.BulkSearch

/-!
The grammar of character literals, and what a probe makes of a text that does not keep to it.

The grammar is written down without the probe. A digit of a base is a byte with a value (`IsDigit`),
the numeric escapes have three forms (`NumericEscape`), and the escapes of one character are a table
(`simpleEscapes`). `Probed` says for every text which literal is found and which characters are
left: a closed literal, an escape without its apostrophe, a backslash with as much as there is of a
numeric escape, two apostrophes, a character to be handed back, or nothing.

Behind its first character a numeric escape is a fixed number of digits of one class
(`numericTail?`), so that the three forms are read by one argument: the digits are passed up to the
first character that is none (`readDigits_cases`). Either the escape is complete, or what was passed
is the longest part of one that the text starts with (`readEscape_of_no_escape`).

Main statement: a probe finds what the grammar says, and the grammar says one thing about every text
(`probe_eq_iff_probed`).
-/

set_option autoImplicit false
set_option relaxedAutoImplicit false

namespace GrammarFragments

open Reader

namespace CharLiteral

/-! ### The grammar -/

/-- The byte writes the digit of a base that has the given value. From ten on the digits are
letters, of either case. -/
def IsDigit (base : Nat) (byte : UInt8) (value : Nat) : Prop :=
  value < base ∧
    ((value < 10 ∧ byte.toNat = 0x30 + value) ∨
      (10 ≤ value ∧ (byte.toNat = 0x61 + (value - 10) ∨ byte.toNat = 0x41 + (value - 10))))

/-- The numeric escapes, without their backslash, and their values. Three decimal digits are weighed
like octal ones. -/
inductive NumericEscape : List UInt8 → Nat → Prop
  | decimal {first second third : UInt8} {high middle low : Nat} (hfirst : IsDigit 10 first high)
    (hsecond : IsDigit 10 second middle) (hthird : IsDigit 10 third low) :
    NumericEscape [first, second, third] (64 * high + 8 * middle + low)
  | hex {first second : UInt8} {high low : Nat} (hfirst : IsDigit 16 first high)
    (hsecond : IsDigit 16 second low) : NumericEscape [0x78, first, second] (16 * high + low)
  | octal {first second third : UInt8} {high middle low : Nat} (hfirst : IsDigit 8 first high)
    (hsecond : IsDigit 8 second middle) (hthird : IsDigit 8 third low) :
    NumericEscape [0x6F, first, second, third] (64 * high + 8 * middle + low)

/-- The escapes of one character, without their backslash, and the characters they stand for: the
backslash, the two quotes and the space for themselves, `n`, `t`, `b` and `r` for controls. -/
def simpleEscapes : List (UInt8 × UInt8) :=
  [(Ascii.backslash, Ascii.backslash), (Ascii.apostrophe, Ascii.apostrophe),
    (Ascii.doubleQuote, Ascii.doubleQuote), (0x20, 0x20), (0x6E, 0x0A), (0x74, 0x09),
    (0x62, 0x08), (0x72, 0x0D)]

/-- The valid escapes, without their backslash, and the bytes they stand for. There is no byte for a
number above 255, which counts as zero. -/
inductive Escape : List UInt8 → UInt8 → Prop
  | numeric {form : List UInt8} {value : Nat} (hnumeric : NumericEscape form value) :
    Escape form (if value ≤ 255 then value.toUInt8 else 0)
  | simple {byte value : UInt8} (hmem : (byte, value) ∈ simpleEscapes) : Escape [byte] value

/-- The characters start a numeric escape that needs more of them. -/
def NumericPart (chars : List UInt8) : Prop :=
  ∃ more value, more ≠ [] ∧ NumericEscape (chars ++ more) value

/-- Of the parts of numeric escapes that a text starts with, `part` is the longest. -/
structure LongestPart (part text : List UInt8) : Prop where
  isPart : NumericPart part
  starts : part <+: text
  longest : ∀ other, NumericPart other → other <+: text → other.length ≤ part.length

/-- What a probe behind an apostrophe finds in a text, and what it leaves of it. -/
inductive Probed : List UInt8 → CharLiteral → List UInt8 → Prop
  | escape {form left : List UInt8} {value : UInt8} (hescape : Escape form value) :
    Probed (Ascii.backslash :: (form ++ Ascii.apostrophe :: left)) ⟨true, true, value, none⟩ left
  /-- Without its apostrophe an escape is passed for nothing. -/
  | unclosedEscape {form left : List UInt8} {value : UInt8} (hescape : Escape form value)
    (hopen : left.head? ≠ some Ascii.apostrophe) :
    Probed (Ascii.backslash :: (form ++ left)) absent left
  /-- No escape starts behind the backslash. -/
  | malformed {part left : List UInt8}
    (hnone : ∀ form value, Escape form value → ¬ form <+: part ++ left)
    (hpart : LongestPart part (part ++ left)) :
    Probed (Ascii.backslash :: (part ++ left)) absent left
  | empty (left : List UInt8) : Probed (Ascii.apostrophe :: left) ⟨true, false, 0, none⟩ left
  | plain {byte : UInt8} (left : List UInt8) (hquote : byte ≠ Ascii.apostrophe)
    (hescape : byte ≠ Ascii.backslash) :
    Probed (byte :: Ascii.apostrophe :: left)
      ⟨true, true, if byte < 0x80 then byte else 0, none⟩ left
  /-- A character without its apostrophe is handed back. -/
  | handedBack {byte : UInt8} {left : List UInt8} (hquote : byte ≠ Ascii.apostrophe)
    (hescape : byte ≠ Ascii.backslash) (hopen : left.head? ≠ some Ascii.apostrophe) :
    Probed (byte :: left) ⟨false, false, 0, some byte⟩ left
  | nothing : Probed [] absent []

/-! ### Digits -/

/-- Assumes: a base of no more than sixteen. The value of a digit is the one that is added up. -/
theorem IsDigit.digitValue_eq {base value : Nat} {byte : UInt8} (hbase : base ≤ 16)
    (hdigit : IsDigit base byte value) : digitValue byte = value := by
  unfold IsDigit at hdigit
  unfold digitValue isDecimalDigit
  simp only [Bool.and_eq_true, decide_eq_true_eq, UInt8.le_iff_toNat_le, UInt8.reduceToNat]
  split_ifs <;> omega

/-- Assumes: a base of no more than ten. Its digits are the bytes from `0` on, as many as the base
says. -/
theorem exists_isDigit_iff {base : Nat} (hbase : base ≤ 10) (byte : UInt8) :
    (∃ value, IsDigit base byte value) ↔ 0x30 ≤ byte.toNat ∧ byte.toNat < 0x30 + base := by
  unfold IsDigit
  constructor
  · rintro ⟨value, hvalue⟩
    omega
  · intro hbyte
    exact ⟨byte.toNat - 0x30, by omega⟩

theorem isDecimalDigit_iff (byte : UInt8) :
    isDecimalDigit byte = true ↔ ∃ value, IsDigit 10 byte value := by
  rw [exists_isDigit_iff (by decide)]
  unfold isDecimalDigit
  simp only [Bool.and_eq_true, decide_eq_true_eq, UInt8.le_iff_toNat_le, UInt8.reduceToNat]
  omega

theorem isOctalDigit_iff (byte : UInt8) :
    isOctalDigit byte = true ↔ ∃ value, IsDigit 8 byte value := by
  rw [exists_isDigit_iff (by decide)]
  unfold isOctalDigit
  simp only [Bool.and_eq_true, decide_eq_true_eq, UInt8.le_iff_toNat_le, UInt8.reduceToNat]
  omega

theorem isHexDigit_iff (byte : UInt8) :
    isHexDigit byte = true ↔ ∃ value, IsDigit 16 byte value := by
  unfold isHexDigit isDecimalDigit IsDigit
  simp only [Bool.or_eq_true, Bool.and_eq_true, decide_eq_true_eq, UInt8.le_iff_toNat_le,
    UInt8.reduceToNat]
  constructor
  · rintro ((hdecimal | hlower) | hupper)
    · exact ⟨byte.toNat - 0x30, by omega⟩
    · exact ⟨byte.toNat - 0x61 + 10, by omega⟩
    · exact ⟨byte.toNat - 0x41 + 10, by omega⟩
  · rintro ⟨value, hvalue⟩
    omega

/-- Digits that are all there are passed, whatever comes after them. -/
theorem readDigits_append_of_forall {accept : UInt8 → Bool} (weight start : Nat)
    {digits : List UInt8} (hdigits : ∀ byte ∈ digits, accept byte = true) (left : List UInt8) :
    readDigits accept weight digits.length start (digits ++ left) =
      (some (digits.foldl (fun value byte ↦ value * weight + digitValue byte) start), left) := by
  induction digits generalizing start with
  | nil => rfl
  | cons first digits ih =>
    obtain ⟨hfirst, hothers⟩ := List.forall_mem_cons.mp hdigits
    rw [List.length_cons, readDigits, List.cons_append, current_cons, if_pos hfirst, advance_cons,
      ih _ hothers, List.foldl_cons]

/-- Assumes: a class without zero, which stands for the end of the text. Digits are passed until
there are enough of them, or else up to the first character that is none. -/
theorem readDigits_cases {accept : UInt8 → Bool} (hzero : accept 0 = false)
    (weight count start : Nat) (chars : List UInt8) :
    ∃ digits left, chars = digits ++ left ∧ (∀ byte ∈ digits, accept byte = true) ∧
      (digits.length = count ∨
        (digits.length < count ∧ (∀ byte, left.head? = some byte → accept byte = false) ∧
          readDigits accept weight count start chars = (none, left))) := by
  induction count generalizing start chars with
  | zero => exact ⟨[], chars, rfl, by simp, .inl rfl⟩
  | succ count ih =>
    by_cases haccept : accept (current chars) = true
    · obtain _ | ⟨first, chars⟩ := chars
      · exact absurd haccept (by rw [show current ([] : List UInt8) = 0 from rfl, hzero]; simp)
      · rw [current_cons] at haccept
        obtain ⟨digits, left, rfl, hdigits, hcount⟩ := ih (start * weight + digitValue first) chars
        refine ⟨first :: digits, left, rfl, List.forall_mem_cons.mpr ⟨haccept, hdigits⟩, ?_⟩
        rcases hcount with hall | ⟨hless, hrefused, hunread⟩
        · exact .inl (congrArg Nat.succ hall)
        · refine .inr ⟨Nat.succ_lt_succ hless, hrefused, ?_⟩
          rw [readDigits, current_cons, if_pos haccept, advance_cons, hunread]
    · refine ⟨[], chars, rfl, by simp, .inr ⟨Nat.succ_pos count, ?_, ?_⟩⟩
      · intro byte hbyte
        rw [current_eq_headD, List.headD_eq_head?_getD] at haccept
        change ¬ accept (chars.head?.getD 0) = true at haccept
        rw [hbyte] at haccept
        exact Bool.not_eq_true _ ▸ haccept
      · rw [readDigits, if_neg haccept]

/-! ### Numeric escapes -/

/-- What a numeric escape has behind its first character: `count` digits of a base, each added to
what is there already, which has `weight` times its value then. -/
structure NumericTail where
  base : Nat
  accept : UInt8 → Bool
  weight : Nat
  count : Nat
  start : Nat
  base_pos : 0 < base
  accept_iff : ∀ byte, accept byte = true ↔ ∃ value, IsDigit base byte value

namespace NumericTail

/-- The number that some digits give. -/
def value (tail : NumericTail) (digits : List UInt8) : Nat :=
  digits.foldl (fun value byte ↦ value * tail.weight + digitValue byte) tail.start

/-- The two digits behind a decimal one. -/
def decimal (first : UInt8) : NumericTail where
  base := 10
  accept := isDecimalDigit
  weight := 8
  count := 2
  start := digitValue first
  base_pos := by decide
  accept_iff := isDecimalDigit_iff

/-- The two digits behind an `x`. -/
def hex : NumericTail where
  base := 16
  accept := isHexDigit
  weight := 16
  count := 2
  start := 0
  base_pos := by decide
  accept_iff := isHexDigit_iff

/-- The three digits behind an `o`. -/
def octal : NumericTail where
  base := 8
  accept := isOctalDigit
  weight := 8
  count := 3
  start := 0
  base_pos := by decide
  accept_iff := isOctalDigit_iff

variable (tail : NumericTail)

theorem accept_zero : tail.accept 0 = false := by
  rw [← Bool.not_eq_true, tail.accept_iff]
  rintro ⟨value, hdigit⟩
  unfold IsDigit at hdigit
  simp only [UInt8.reduceToNat] at hdigit
  omega

/-- Every base has a zero among its digits. -/
theorem accept_zeroDigit : tail.accept 0x30 = true :=
  (tail.accept_iff 0x30).mpr ⟨0, tail.base_pos, .inl ⟨by decide, by decide⟩⟩

theorem value_decimal {first second third : UInt8} {high middle low : Nat}
    (hfirst : IsDigit 10 first high) (hsecond : IsDigit 10 second middle)
    (hthird : IsDigit 10 third low) :
    (decimal first).value [second, third] = 64 * high + 8 * middle + low := by
  simp only [value, decimal, List.foldl_cons, List.foldl_nil, hfirst.digitValue_eq (by decide),
    hsecond.digitValue_eq (by decide), hthird.digitValue_eq (by decide)]
  omega

theorem value_hex {first second : UInt8} {high low : Nat} (hfirst : IsDigit 16 first high)
    (hsecond : IsDigit 16 second low) : hex.value [first, second] = 16 * high + low := by
  simp only [value, hex, List.foldl_cons, List.foldl_nil, hfirst.digitValue_eq (by decide),
    hsecond.digitValue_eq (by decide)]
  omega

theorem value_octal {first second third : UInt8} {high middle low : Nat}
    (hfirst : IsDigit 8 first high) (hsecond : IsDigit 8 second middle)
    (hthird : IsDigit 8 third low) :
    octal.value [first, second, third] = 64 * high + 8 * middle + low := by
  simp only [value, octal, List.foldl_cons, List.foldl_nil, hfirst.digitValue_eq (by decide),
    hsecond.digitValue_eq (by decide), hthird.digitValue_eq (by decide)]
  omega

end NumericTail

/-- What belongs behind a character that starts a numeric escape. -/
def numericTail? (first : UInt8) : Option NumericTail :=
  if isDecimalDigit first then some (.decimal first)
  else if first = 0x78 then some .hex
  else if first = 0x6F then some .octal
  else none

theorem NumericEscape.ne_nil {form : List UInt8} {value : Nat}
    (hnumeric : NumericEscape form value) : form ≠ [] := by
  obtain _ | _ | _ := hnumeric <;> exact List.cons_ne_nil _ _

/-- A numeric escape is a character that starts one, and the digits that belong behind it. -/
theorem numericEscape_cons_iff {first : UInt8} {form : List UInt8} {value : Nat} :
    NumericEscape (first :: form) value ↔
      ∃ tail, numericTail? first = some tail ∧ form.length = tail.count ∧
        (∀ byte ∈ form, tail.accept byte = true) ∧ tail.value form = value := by
  constructor
  · intro hnumeric
    cases hnumeric with
    | decimal hfirst hsecond hthird =>
      refine ⟨.decimal first, if_pos ((isDecimalDigit_iff _).mpr ⟨_, hfirst⟩), rfl, ?_,
        NumericTail.value_decimal hfirst hsecond hthird⟩
      simp only [List.forall_mem_cons, NumericTail.accept_iff]
      exact ⟨⟨_, hsecond⟩, ⟨_, hthird⟩, by simp⟩
    | hex hfirst hsecond =>
      refine ⟨.hex, rfl, rfl, ?_, NumericTail.value_hex hfirst hsecond⟩
      simp only [List.forall_mem_cons, NumericTail.accept_iff]
      exact ⟨⟨_, hfirst⟩, ⟨_, hsecond⟩, by simp⟩
    | octal hfirst hsecond hthird =>
      refine ⟨.octal, rfl, rfl, ?_, NumericTail.value_octal hfirst hsecond hthird⟩
      simp only [List.forall_mem_cons, NumericTail.accept_iff]
      exact ⟨⟨_, hfirst⟩, ⟨_, hsecond⟩, ⟨_, hthird⟩, by simp⟩
  · rintro ⟨tail, htail, hlength, hform, rfl⟩
    unfold numericTail? at htail
    split_ifs at htail with hdecimal hhex hoctal
    · cases htail
      obtain ⟨second, third, rfl⟩ := List.length_eq_two.mp hlength
      simp only [List.forall_mem_cons, NumericTail.accept_iff] at hform
      obtain ⟨high, hhigh⟩ := (isDecimalDigit_iff first).mp hdecimal
      obtain ⟨⟨middle, hmiddle⟩, ⟨low, hlow⟩, -⟩ := hform
      rw [NumericTail.value_decimal hhigh hmiddle hlow]
      exact .decimal hhigh hmiddle hlow
    · cases htail
      obtain ⟨second, third, rfl⟩ := List.length_eq_two.mp hlength
      simp only [List.forall_mem_cons, NumericTail.accept_iff] at hform
      obtain ⟨⟨high, hhigh⟩, ⟨low, hlow⟩, -⟩ := hform
      rw [hhex, NumericTail.value_hex hhigh hlow]
      exact .hex hhigh hlow
    · cases htail
      obtain ⟨second, third, fourth, rfl⟩ := List.length_eq_three.mp hlength
      simp only [List.forall_mem_cons, NumericTail.accept_iff] at hform
      obtain ⟨⟨high, hhigh⟩, ⟨middle, hmiddle⟩, ⟨low, hlow⟩, -⟩ := hform
      rw [hoctal, NumericTail.value_octal hhigh hmiddle hlow]
      exact .octal hhigh hmiddle hlow

theorem numericPart_nil : NumericPart [] :=
  have hzero : IsDigit 10 0x30 0 := by unfold IsDigit; decide
  ⟨_, _, List.cons_ne_nil _ _, .decimal hzero hzero hzero⟩

/-- Assumes: a character that starts a numeric escape, with some digits behind it but not all. These
are a part of a numeric escape, which zeros complete. -/
theorem numericPart_cons {first : UInt8} {tail : NumericTail} {digits : List UInt8}
    (htail : numericTail? first = some tail) (hdigits : ∀ byte ∈ digits, tail.accept byte = true)
    (hless : digits.length < tail.count) : NumericPart (first :: digits) := by
  refine ⟨List.replicate (tail.count - digits.length) 0x30, _, ?_,
    numericEscape_cons_iff.mpr ⟨tail, htail, ?_, ?_, rfl⟩⟩
  · rw [ne_eq, List.replicate_eq_nil_iff]
    omega
  · change (digits ++ List.replicate (tail.count - digits.length) 0x30).length = tail.count
    rw [List.length_append, List.length_replicate]
    omega
  · intro byte hbyte
    rcases List.mem_append.mp hbyte with hmem | hzero
    · exact hdigits byte hmem
    · rw [List.eq_of_mem_replicate hzero]
      exact tail.accept_zeroDigit

/-- What comes behind the first character of a part of a numeric escape are digits. -/
theorem NumericPart.exists_tail {first : UInt8} {digits : List UInt8}
    (hpart : NumericPart (first :: digits)) :
    ∃ tail, numericTail? first = some tail ∧ ∀ byte ∈ digits, tail.accept byte = true := by
  obtain ⟨more, value, -, hnumeric⟩ := hpart
  obtain ⟨tail, htail, -, hform, -⟩ := numericEscape_cons_iff.mp hnumeric
  exact ⟨tail, htail, fun byte hbyte ↦ hform byte (List.mem_append_left more hbyte)⟩

/-- Assumes: a character that starts a numeric escape, with some digits behind it but not all, and
then a character that is no such digit or the end of the text. No part of a numeric escape is
longer. -/
theorem longestPart_cons {first : UInt8} {tail : NumericTail} {digits left : List UInt8}
    (htail : numericTail? first = some tail) (hdigits : ∀ byte ∈ digits, tail.accept byte = true)
    (hless : digits.length < tail.count)
    (hrefused : ∀ byte, left.head? = some byte → tail.accept byte = false) :
    LongestPart (first :: digits) (first :: (digits ++ left)) := by
  refine ⟨numericPart_cons htail hdigits hless, List.prefix_append (first :: digits) left, ?_⟩
  rintro (_ | ⟨other, others⟩) hpart hstarts
  · exact Nat.zero_le _
  · obtain ⟨rfl, hothers⟩ := List.cons_prefix_cons.mp hstarts
    obtain ⟨sameTail, hsame, haccept⟩ := hpart.exists_tail
    obtain rfl : tail = sameTail := Option.some_inj.mp (htail.symm.trans hsame)
    refine Nat.succ_le_succ (Nat.le_of_not_lt fun hlonger ↦ ?_)
    obtain ⟨extra, rfl⟩ : digits <+: others :=
      List.prefix_of_prefix_length_le (List.prefix_append digits left) hothers
        (Nat.le_of_lt hlonger)
    -- A longer part has a digit in the place of the character that is none.
    obtain _ | ⟨byte, extra⟩ := extra
    · simp at hlonger
    · rw [List.prefix_append_right_inj] at hothers
      obtain ⟨more, rfl⟩ := hothers
      have hrefuse := hrefused byte rfl
      rw [haccept byte (by simp)] at hrefuse
      cases hrefuse

/-! ### Escapes -/

/-- The digits of a numeric escape are read by the tail that belongs to its first character. -/
theorem readEscape_of_tail {first : UInt8} {tail : NumericTail}
    (htail : numericTail? first = some tail) (chars : List UInt8) :
    readEscape (first :: chars) =
      (numericBody (readDigits tail.accept tail.weight tail.count tail.start chars).1,
        (readDigits tail.accept tail.weight tail.count tail.start chars).2) := by
  unfold numericTail? at htail
  split_ifs at htail with hdecimal hhex hoctal
  · cases htail
    simp only [readEscape, current_cons, hdecimal, if_true]
    rw [readDigits, current_cons, if_pos hdecimal, advance_cons, Nat.zero_mul, Nat.zero_add]
    rfl
  · cases htail
    subst hhex
    rfl
  · cases htail
    subst hoctal
    rfl

/-- A character that starts no numeric escape is looked up in the table of the simple ones. -/
theorem readEscape_of_no_tail {first : UInt8} (htail : numericTail? first = none)
    (chars : List UInt8) :
    (∀ value, simpleEscape? first = some value →
        readEscape (first :: chars) = (.escape value, chars)) ∧
      (simpleEscape? first = none →
        readEscape (first :: chars) = (.malformed, first :: chars)) := by
  unfold numericTail? at htail
  split_ifs at htail with hdecimal hhex hoctal
  simp only [readEscape, current_cons, advance_cons, hdecimal, hhex, hoctal, Bool.false_eq_true,
    if_false]
  constructor
  · intro value hsimple
    rw [hsimple]
  · intro hnone
    rw [hnone]

theorem simpleEscape?_of_mem {byte value : UInt8} (hmem : (byte, value) ∈ simpleEscapes) :
    numericTail? byte = none ∧ simpleEscape? byte = some value := by
  have htable : (simpleEscapes.all fun pair ↦
      (numericTail? pair.1).isNone && decide (simpleEscape? pair.1 = some pair.2)) = true := rfl
  have hpair := List.all_eq_true.mp htable _ hmem
  rw [Bool.and_eq_true, decide_eq_true_eq] at hpair
  exact ⟨Option.isNone_iff_eq_none.mp hpair.1, hpair.2⟩

theorem mem_simpleEscapes {byte value : UInt8} (hsimple : simpleEscape? byte = some value) :
    (byte, value) ∈ simpleEscapes := by
  unfold simpleEscape? at hsimple
  split_ifs at hsimple with hself hnewline htab hbackspace hreturn
  all_goals obtain rfl := Option.some_inj.mp hsimple
  · rcases hself with rfl | rfl | rfl | rfl <;> decide
  · exact hnewline ▸ by decide
  · exact htab ▸ by decide
  · exact hbackspace ▸ by decide
  · exact hreturn ▸ by decide

/-- A valid escape is read with its value, whatever comes after it. -/
theorem Escape.readEscape_append {form : List UInt8} {value : UInt8} (hescape : Escape form value)
    (left : List UInt8) : readEscape (form ++ left) = (.escape value, left) := by
  obtain ⟨hnumeric⟩ | ⟨hmem⟩ := hescape
  · obtain ⟨first, form, rfl⟩ := List.exists_cons_of_ne_nil hnumeric.ne_nil
    obtain ⟨tail, htail, hlength, hform, rfl⟩ := numericEscape_cons_iff.mp hnumeric
    rw [List.cons_append, readEscape_of_tail htail, ← hlength,
      readDigits_append_of_forall tail.weight tail.start hform]
    rfl
  · obtain ⟨htail, hsimple⟩ := simpleEscape?_of_mem hmem
    exact (readEscape_of_no_tail htail left).1 _ hsimple

/-- Assumes: a text that starts with no escape. The longest part of a numeric escape is passed, and
the escape is refused. -/
theorem readEscape_of_no_escape {chars : List UInt8}
    (hnone : ∀ form value, Escape form value → ¬ form <+: chars) :
    ∃ part left, chars = part ++ left ∧ LongestPart part chars ∧
      readEscape chars = (.malformed, left) := by
  obtain _ | ⟨first, chars⟩ := chars
  · refine ⟨[], [], rfl, ⟨numericPart_nil, List.prefix_rfl, ?_⟩, rfl⟩
    intro other _ hstarts
    exact hstarts.length_le
  · cases htail : numericTail? first with
    | none =>
      have hsimple : simpleEscape? first = none := by
        rw [Option.eq_none_iff_forall_not_mem]
        intro value hvalue
        exact hnone [first] value (.simple (mem_simpleEscapes hvalue))
          (List.prefix_append [first] _)
      refine ⟨[], first :: chars, rfl, ⟨numericPart_nil, List.nil_prefix, ?_⟩,
        (readEscape_of_no_tail htail chars).2 hsimple⟩
      rintro (_ | ⟨other, digits⟩) hpart hstarts
      · exact Nat.le_refl _
      · obtain ⟨rfl, -⟩ := List.cons_prefix_cons.mp hstarts
        obtain ⟨tail, hsome, -⟩ := hpart.exists_tail
        exact absurd (htail.symm.trans hsome) (Option.some_ne_none tail).symm
    | some tail =>
      obtain ⟨digits, left, rfl, hdigits, hcount⟩ :=
        readDigits_cases tail.accept_zero tail.weight tail.count tail.start chars
      rcases hcount with hall | ⟨hless, hrefused, hunread⟩
      · have hnumeric := numericEscape_cons_iff.mpr ⟨tail, htail, hall, hdigits, rfl⟩
        exact absurd (List.prefix_append (first :: digits) left) (hnone _ _ (.numeric hnumeric))
      · refine ⟨first :: digits, left, rfl, longestPart_cons htail hdigits hless hrefused, ?_⟩
        rw [readEscape_of_tail htail, hunread]
        rfl

/-! ### Probes -/

/-- Assumes: a body that is not refused, in front of an apostrophe. The literal is closed. -/
theorem probe_of_closed {chars left : List UInt8} {body : Body}
    (hbody : readBody chars = (body, Ascii.apostrophe :: left)) (hvalid : body ≠ .malformed) :
    probe chars = (ofBody body, left) := by
  simp only [probe, hbody, if_neg hvalid, current_cons, advance_cons, if_true]

/-- Assumes: a body without an apostrophe after it. It makes no literal. -/
theorem probe_of_open {chars left : List UInt8} {body : Body}
    (hbody : readBody chars = (body, left)) (hopen : left.head? ≠ some Ascii.apostrophe) :
    probe chars = (ofUnclosed body, left) := by
  have hcurrent : ¬ current left = Ascii.apostrophe := by
    rw [current_eq_iff_head? (by decide)]
    exact hopen
  by_cases hmalformed : body = .malformed
  · simp only [probe, hbody, if_pos hmalformed]
    rw [hmalformed]
    rfl
  · simp only [probe, hbody, if_neg hmalformed, if_neg hcurrent]

theorem readBody_backslash (chars : List UInt8) :
    readBody (Ascii.backslash :: chars) = readEscape chars := rfl

theorem readBody_apostrophe (chars : List UInt8) :
    readBody (Ascii.apostrophe :: chars) = (.empty, Ascii.apostrophe :: chars) := rfl

theorem readBody_plain {byte : UInt8} (chars : List UInt8) (hquote : byte ≠ Ascii.apostrophe)
    (hescape : byte ≠ Ascii.backslash) : readBody (byte :: chars) = (.plain byte, chars) := by
  simp only [readBody, atEnd_cons, current_cons, advance_cons, hquote, hescape,
    Bool.false_eq_true, if_false]

/-- Two ways to divide a text at its longest part of a numeric escape are the same. -/
theorem LongestPart.left_eq {part other left otherLeft : List UInt8}
    (hpart : LongestPart part (part ++ left)) (hother : LongestPart other (other ++ otherLeft))
    (htext : part ++ left = other ++ otherLeft) : left = otherLeft := by
  have hle := hpart.longest other hother.isPart (htext ▸ hother.starts)
  have hge := hother.longest part hpart.isPart (htext ▸ hpart.starts)
  exact (List.append_inj htext (Nat.le_antisymm hge hle)).2

/-- What the grammar says about a text is what a probe finds. -/
theorem Probed.probe_eq {chars left : List UInt8} {literal : CharLiteral}
    (hprobed : Probed chars literal left) : probe chars = (literal, left) := by
  cases hprobed with
  | escape hescape =>
    exact probe_of_closed ((readBody_backslash _).trans (hescape.readEscape_append _)) (by simp)
  | unclosedEscape hescape hopen =>
    exact probe_of_open ((readBody_backslash _).trans (hescape.readEscape_append left)) hopen
  | malformed hnone hpart =>
    obtain ⟨other, otherLeft, htext, hother, hread⟩ := readEscape_of_no_escape hnone
    rw [← hpart.left_eq (htext ▸ hother) htext] at hread
    simp only [probe, readBody_backslash, hread, if_true]
  | empty => exact probe_of_closed (readBody_apostrophe left) (by simp)
  | plain left hquote hescape =>
    exact probe_of_closed (readBody_plain (Ascii.apostrophe :: left) hquote hescape) (by simp)
  | handedBack hquote hescape hopen =>
    exact probe_of_open (readBody_plain left hquote hescape) hopen
  | nothing => rfl

/-- The grammar says something about every text. -/
theorem exists_probed (chars : List UInt8) : ∃ literal left, Probed chars literal left := by
  obtain _ | ⟨first, chars⟩ := chars
  · exact ⟨_, _, .nothing⟩
  by_cases hquote : first = Ascii.apostrophe
  · subst hquote
    exact ⟨_, _, .empty chars⟩
  by_cases hescape : first = Ascii.backslash
  · subst hescape
    by_cases hvalid : ∃ form value, Escape form value ∧ form <+: chars
    · obtain ⟨form, value, hvalid, left, rfl⟩ := hvalid
      by_cases hclosed : left.head? = some Ascii.apostrophe
      · obtain ⟨more, rfl⟩ : ∃ more, left = Ascii.apostrophe :: more :=
          ⟨_, List.eq_cons_of_mem_head? hclosed⟩
        exact ⟨_, _, .escape hvalid⟩
      · exact ⟨_, _, .unclosedEscape hvalid hclosed⟩
    · have hnone : ∀ form value, Escape form value → ¬ form <+: chars :=
        fun form value hform hstarts ↦ hvalid ⟨form, value, hform, hstarts⟩
      obtain ⟨part, left, rfl, hpart, -⟩ := readEscape_of_no_escape hnone
      exact ⟨_, _, .malformed hnone hpart⟩
  by_cases hclosed : chars.head? = some Ascii.apostrophe
  · obtain ⟨left, rfl⟩ : ∃ left, chars = Ascii.apostrophe :: left :=
      ⟨_, List.eq_cons_of_mem_head? hclosed⟩
    exact ⟨_, _, .plain left hquote hescape⟩
  · exact ⟨_, _, .handedBack hquote hescape hclosed⟩

/-- What a probe finds, the byte handed back included, is told by the characters still to be
read. -/
theorem probe_rest {ρ : Type} [SeekReader ρ] (reader : ρ) :
    (probe reader).1 = (probe (rest reader)).1 ∧
      rest (probe reader).2 = (probe (rest reader)).2 := by
  obtain ⟨halike, hleft⟩ := rest_simulation.probe_related (rfl : rest reader = _)
  refine ⟨halike.eq_of_pending_eq ?_, hleft⟩
  rw [pending_probe, pending_probe, current_eq_headD reader]
  rfl

end CharLiteral

open CharLiteral

/-- For every reader. A probe finds a literal and leaves some characters exactly if the grammar says
so of the characters still to be read. The grammar says so of one literal and one rest alone. -/
theorem probe_eq_iff_probed {ρ : Type} [SeekReader ρ] (reader : ρ) (literal : CharLiteral)
    (left : List UInt8) :
    ((probe reader).1 = literal ∧ rest (probe reader).2 = left) ↔
      Probed (rest reader) literal left := by
  obtain ⟨hliteral, hleft⟩ := probe_rest reader
  rw [hliteral, hleft]
  constructor
  · rintro ⟨rfl, rfl⟩
    obtain ⟨literal, left, hprobed⟩ := exists_probed (rest reader)
    rw [hprobed.probe_eq]
    exact hprobed
  · intro hprobed
    rw [hprobed.probe_eq]
    exact ⟨rfl, rfl⟩

end GrammarFragments
