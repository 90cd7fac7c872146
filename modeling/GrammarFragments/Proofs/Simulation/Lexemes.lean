import GrammarFragments.Lexeme.CharLiteral
import GrammarFragments.Lexeme.QuotedText
import GrammarFragments.Lexeme.StringLiteral
import GrammarFragments.Source.Characters

/-!
Two readers that a recognizer cannot tell apart. A simulation is a relation between the states of
two readers: related states report alike characters, are at the end together, and stay related when
both advance or both commit. Alike characters are equal or both outside of ASCII, because readers
may report one character outside of ASCII by different bytes.

A simulation may keep the last characters of the text in reserve. Then nothing is asked of states
that have read into the reserve, and nothing is said about what such a state has read; all else
depends on no character of the reserve but the first. With no characters in reserve, which is the
default, the two readers are alike throughout.

A search in bulk is an operation of its own, which a simulation has to keep as well
(`SeekSimulation`). It does if the search ends in the very state of the walk from character to
character (`seekSimulation`).

Nothing that reads a lexeme sees the difference: from related states every run of characters
(`advanceWhile_related`, `collectWhile_related`), every string literal (`finish_related`), every
probe for a character literal (`probe_related`) and every quoted text (`read_related`) ends in
related states with the same result. A character handed back by a probe is alike on both sides. The
tag of a quoted text is read from the text itself, so what is passed does not depend on the context
either.
-/

set_option autoImplicit false
set_option relaxedAutoImplicit false

namespace GrammarFragments

/-! ### Alike characters -/

/-- Two bytes report alike characters: they are equal, or neither of them is ASCII. -/
def Alike (first second : UInt8) : Prop := first = second ∨ (0x80 ≤ first ∧ 0x80 ≤ second)

namespace Alike

theorem refl (byte : UInt8) : Alike byte byte := .inl rfl

theorem rel_refl (pending : Option UInt8) : Option.Rel Alike pending pending := by
  cases pending with
  | none => exact .none
  | some byte => exact .some (refl byte)

/-- Assumes: a function that is constant outside of ASCII. It does not tell alike bytes apart. -/
theorem apply_eq {α : Type} {f : UInt8 → α} {value : α} {first second : UInt8}
    (hconstant : ∀ byte, 0x80 ≤ byte → f byte = value) (halike : Alike first second) :
    f first = f second := by
  rcases halike with rfl | ⟨hfirst, hsecond⟩
  · rfl
  · rw [hconstant first hfirst, hconstant second hsecond]

/-- Assumes: an ASCII byte. Of two alike bytes both or neither are that byte. -/
theorem eq_iff {first second : UInt8} (halike : Alike first second) (ascii : UInt8)
    (hascii : isAscii ascii = true) : first = ascii ↔ second = ascii := by
  have hother : ∀ byte, 0x80 ≤ byte → (byte == ascii) = false := by
    intro byte hbyte
    rw [beq_eq_false_iff_ne]
    exact ne_ascii_of_le hbyte ascii hascii
  rw [← beq_iff_eq, ← beq_iff_eq (b := ascii), apply_eq hother halike]

/-- Assumes: alike bytes, the first of them in a class of ASCII bytes. The two are equal. -/
theorem eq_of_accept {accept : UInt8 → Bool} {first second : UInt8} (haccept : AsciiOnly accept)
    (halike : Alike first second) (hfirst : accept first = true) : first = second := by
  rcases halike with rfl | ⟨houtside, -⟩
  · rfl
  · rw [haccept first houtside] at hfirst
    contradiction

end Alike

/-- No byte outside of ASCII is a simple escape. -/
theorem simpleEscape?_of_le (byte : UInt8) (hbyte : 0x80 ≤ byte) :
    CharLiteral.simpleEscape? byte = none := by
  simp only [CharLiteral.simpleEscape?, ne_ascii_of_le hbyte Ascii.backslash rfl,
    ne_ascii_of_le hbyte Ascii.apostrophe rfl, ne_ascii_of_le hbyte Ascii.doubleQuote rfl,
    ne_ascii_of_le hbyte 0x20 rfl, ne_ascii_of_le hbyte 0x6E rfl, ne_ascii_of_le hbyte 0x74 rfl,
    ne_ascii_of_le hbyte 0x62 rfl, ne_ascii_of_le hbyte 0x72 rfl, or_self, if_false]

/-- Bodies of character literals with alike characters. -/
inductive BodiesAlike : CharLiteral.Body → CharLiteral.Body → Prop
  | same (body : CharLiteral.Body) : BodiesAlike body body
  | plain {first second : UInt8} (halike : Alike first second) :
    BodiesAlike (.plain first) (.plain second)

/-- Results of probes that differ at most in the byte of a character handed back. -/
structure LiteralsAlike (literal other : CharLiteral) : Prop where
  closed_eq : literal.closed = other.closed
  wellFormed_eq : literal.wellFormed = other.wellFormed
  value_eq : literal.value = other.value
  pending_alike : Option.Rel Alike literal.pending other.pending

theorem LiteralsAlike.refl (literal : CharLiteral) : LiteralsAlike literal literal where
  closed_eq := rfl
  wellFormed_eq := rfl
  value_eq := rfl
  pending_alike := Alike.rel_refl literal.pending

/-- The value of a closed literal is that of its character if it is ASCII, and zero otherwise, so
alike bodies give the same literal. -/
theorem BodiesAlike.ofBody_eq {body other : CharLiteral.Body} (hbodies : BodiesAlike body other) :
    CharLiteral.ofBody body = CharLiteral.ofBody other := by
  cases hbodies with
  | same body => rfl
  | plain halike =>
    have hvalue : ∀ byte : UInt8, 0x80 ≤ byte → (if byte < 0x80 then byte else 0) = 0 := by
      intro byte hbyte
      rw [if_neg (UInt8.not_lt.mpr hbyte)]
    simp only [CharLiteral.ofBody, Alike.apply_eq hvalue halike]

theorem BodiesAlike.ofUnclosed_alike {body other : CharLiteral.Body}
    (hbodies : BodiesAlike body other) :
    LiteralsAlike (CharLiteral.ofUnclosed body) (CharLiteral.ofUnclosed other) := by
  cases hbodies with
  | same body => exact LiteralsAlike.refl _
  | plain halike => exact ⟨rfl, rfl, rfl, .some halike⟩

theorem BodiesAlike.eq_malformed_iff {body other : CharLiteral.Body}
    (hbodies : BodiesAlike body other) : body = .malformed ↔ other = .malformed := by
  cases hbodies with
  | same body => rfl
  | plain halike => simp

/-! ### Simulations of readers -/

open Reader

/-- The last `reserve` characters of the text have not been read. -/
def Spares {ρ : Type} [Reader ρ] (reserve : Nat) (reader : ρ) : Prop :=
  reserve ≤ (rest reader).length

/-- A reader that spares the reserve had spared it before. -/
theorem Spares.of_suffix {ρ : Type} [Reader ρ] {reserve : Nat} {reader later : ρ}
    (hspares : Spares reserve later) (hsuffix : rest later <:+ rest reader) :
    Spares reserve reader :=
  Nat.le_trans hspares hsuffix.length_le

/-- The relation is kept by every step that a recognizer takes, and related states answer every
question of a recognizer in the same way as long as the last `reserve` characters are spared. -/
structure ReaderSimulation {ρ σ : Type} [Reader ρ] [Reader σ] (related : ρ → σ → Prop)
    (reserve : Nat := 0) : Prop where
  current_alike {reader : ρ} {other : σ} (hrelated : related reader other)
    (hspares : Spares reserve reader := by exact Nat.zero_le _) :
    Alike (current reader) (current other)
  atEnd_eq {reader : ρ} {other : σ} (hrelated : related reader other)
    (hspares : Spares reserve reader := by exact Nat.zero_le _) : atEnd reader = atEnd other
  advance_related {reader : ρ} {other : σ} (hrelated : related reader other) :
    related (advance reader) (advance other)
  commit_related {reader : ρ} {other : σ} (hrelated : related reader other) :
    related (commit reader) (commit other)

/-- A simulation that looking in bulk for the end of a string literal keeps as well. -/
structure SeekSimulation {ρ σ : Type} [SeekReader ρ] [SeekReader σ] (related : ρ → σ → Prop)
    (reserve : Nat := 0) : Prop extends ReaderSimulation related reserve where
  seek_related {reader : ρ} {other : σ} (hrelated : related reader other)
    (hspares : Spares reserve (SeekReader.seek reader) := by exact Nat.zero_le _) :
    related (SeekReader.seek reader) (SeekReader.seek other)

/-- Related states that spare the reserve show the byte on both sides or on neither. -/
def ShownAlike {ρ σ : Type} [Reader ρ] [Reader σ] (related : ρ → σ → Prop) (reserve : Nat)
    (byte : UInt8) : Prop :=
  ∀ {reader other}, related reader other → Spares reserve reader →
    (current reader = byte ↔ current other = byte)

namespace ReaderSimulation

section Runs

variable {ρ σ : Type} [Reader ρ] [Reader σ] {related : ρ → σ → Prop} {reserve : Nat}
  (hsim : ReaderSimulation related reserve)

include hsim

/-- Related states show the same ASCII character or neither shows it. -/
theorem current_eq_iff {reader : ρ} {other : σ} (hrelated : related reader other) (ascii : UInt8)
    (hascii : isAscii ascii = true)
    (hspares : Spares reserve reader := by exact Nat.zero_le _) :
    current reader = ascii ↔ current other = ascii :=
  (hsim.current_alike hrelated hspares).eq_iff ascii hascii

theorem accept_current_eq {accept : UInt8 → Bool} (haccept : AsciiOnly accept) {reader : ρ}
    {other : σ} (hrelated : related reader other)
    (hspares : Spares reserve reader := by exact Nat.zero_le _) :
    accept (current reader) = accept (current other) :=
  Alike.apply_eq haccept (hsim.current_alike hrelated hspares)

/-- Assumes: a class that does not tell alike bytes apart. Passing a run of it keeps states
related. -/
theorem advanceWhile_related {accept : UInt8 → Bool}
    (haccept : ∀ {first second}, Alike first second → accept first = accept second)
    {reader : ρ} {other : σ} (hrelated : related reader other)
    (hspares : Spares reserve (advanceWhile accept reader) := by exact Nat.zero_le _) :
    related (advanceWhile accept reader) (advanceWhile accept other) := by
  fun_induction advanceWhile accept reader generalizing other with
  | case1 reader hend =>
    rw [advanceWhile, if_pos (hsim.atEnd_eq hrelated hspares ▸ hend)]
    exact hrelated
  | case2 reader hend htaken ih =>
    have hhere : Spares reserve reader := hspares.of_suffix
      ((rest_advanceWhile_suffix accept _).trans (rest_advance_suffix reader))
    rw [advanceWhile.eq_def accept other, if_neg (hsim.atEnd_eq hrelated hhere ▸ hend),
      if_pos (haccept (hsim.current_alike hrelated hhere) ▸ htaken)]
    exact ih (hsim.advance_related hrelated) hspares
  | case3 reader hend htaken =>
    rw [advanceWhile, if_neg (hsim.atEnd_eq hrelated hspares ▸ hend),
      if_neg (haccept (hsim.current_alike hrelated hspares) ▸ htaken)]
    exact hrelated

/-- Assumes: a class of ASCII bytes. The characters of a run of it are the same on both sides. -/
theorem collectWhile_related {accept : UInt8 → Bool} (haccept : AsciiOnly accept) {reader : ρ}
    {other : σ} (hrelated : related reader other) (taken : List UInt8)
    (hspares : Spares reserve (collectWhile accept reader taken).2 := by exact Nat.zero_le _) :
    (collectWhile accept reader taken).1 = (collectWhile accept other taken).1 ∧
      related (collectWhile accept reader taken).2 (collectWhile accept other taken).2 := by
  fun_induction collectWhile accept reader taken generalizing other with
  | case1 reader taken hend =>
    rw [collectWhile, if_pos (hsim.atEnd_eq hrelated hspares ▸ hend)]
    exact ⟨rfl, hrelated⟩
  | case2 reader taken hend htaken ih =>
    have hhere : Spares reserve reader := by
      rw [collectWhile_eq] at hspares
      exact hspares.of_suffix
        ((rest_advanceWhile_suffix accept _).trans (rest_advance_suffix reader))
    have hsame := (hsim.current_alike hrelated hhere).eq_of_accept haccept htaken
    rw [collectWhile.eq_def accept other, if_neg (hsim.atEnd_eq hrelated hhere ▸ hend),
      if_pos (hsame ▸ htaken), ← hsame]
    exact ih (hsim.advance_related hrelated) hspares
  | case3 reader taken hend htaken =>
    rw [collectWhile, if_neg (hsim.atEnd_eq hrelated hspares ▸ hend),
      if_neg (hsim.accept_current_eq haccept hrelated hspares ▸ htaken)]
    exact ⟨rfl, hrelated⟩

end Runs

/-! ### Search for the end of a string literal -/

section Search

variable {ρ σ : Type} [SeekReader ρ] [SeekReader σ] {related : ρ → σ → Prop} {reserve : Nat}

/-- The walk to the next string stop, character by character, keeps states related. -/
theorem seekStepwise_related (hsim : ReaderSimulation related reserve) {reader : ρ} {other : σ}
    (hrelated : related reader other)
    (hspares : Spares reserve (seekStepwise reader) := by exact Nat.zero_le _) :
    related (seekStepwise reader) (seekStepwise other) := by
  refine hsim.advanceWhile_related ?_ hrelated hspares
  intro first second halike
  rw [Alike.apply_eq asciiOnly_isStringStop halike]

/-- Assumes: in related states a search in bulk ends in the very state of the walk from character to
character. It keeps states related, because the walk does. -/
theorem seekSimulation (hsim : ReaderSimulation related reserve)
    (hseek : ∀ {reader : ρ} {other : σ}, related reader other →
      SeekReader.seek reader = seekStepwise reader ∧ SeekReader.seek other = seekStepwise other) :
    SeekSimulation related reserve where
  toReaderSimulation := hsim
  seek_related {reader other} hrelated hspares := by
    obtain ⟨hreader, hother⟩ := hseek hrelated
    rw [hreader] at hspares ⊢
    rw [hother]
    exact hsim.seekStepwise_related hrelated hspares

end Search

/-! ### Character literals -/

section Characters

variable {ρ σ : Type} [Reader ρ] [Reader σ] {related : ρ → σ → Prop} {reserve : Nat}
  (hsim : ReaderSimulation related reserve)

include hsim

theorem readDigits_related {accept : UInt8 → Bool} (haccept : AsciiOnly accept) (base : Nat)
    (count value : Nat) {reader : ρ} {other : σ} (hrelated : related reader other)
    (hspares : Spares reserve (CharLiteral.readDigits accept base count value reader).2 := by
      exact Nat.zero_le _) :
    (CharLiteral.readDigits accept base count value reader).1 =
        (CharLiteral.readDigits accept base count value other).1 ∧
      related (CharLiteral.readDigits accept base count value reader).2
        (CharLiteral.readDigits accept base count value other).2 := by
  induction count generalizing value reader other with
  | zero => exact ⟨rfl, hrelated⟩
  | succ count ih =>
    have hhere := hspares.of_suffix
      (CharLiteral.rest_readDigits_suffix accept base (count + 1) value reader)
    simp only [CharLiteral.readDigits, hsim.accept_current_eq haccept hrelated hhere,
      Alike.apply_eq digitValue_of_le (hsim.current_alike hrelated hhere)] at hspares ⊢
    split at hspares
    · rename_i haccepted
      rw [if_pos haccepted, if_pos haccepted]
      exact ih _ (hsim.advance_related hrelated) hspares
    · rename_i hrefused
      rw [if_neg hrefused, if_neg hrefused]
      exact ⟨rfl, hrelated⟩

theorem readEscape_related {reader : ρ} {other : σ} (hrelated : related reader other)
    (hspares : Spares reserve (CharLiteral.readEscape reader).2 := by exact Nat.zero_le _) :
    (CharLiteral.readEscape reader).1 = (CharLiteral.readEscape other).1 ∧
      related (CharLiteral.readEscape reader).2 (CharLiteral.readEscape other).2 := by
  have hadvanced := hsim.advance_related hrelated
  have hhere := hspares.of_suffix (CharLiteral.rest_readEscape_suffix reader)
  simp only [CharLiteral.readEscape,
    hsim.accept_current_eq asciiOnly_isDecimalDigit hrelated hhere,
    hsim.current_eq_iff hrelated 0x78 rfl hhere, hsim.current_eq_iff hrelated 0x6F rfl hhere,
    Alike.apply_eq simpleEscape?_of_le (hsim.current_alike hrelated hhere)] at hspares ⊢
  by_cases hdecimal : isDecimalDigit (current other) = true
  · simp only [if_pos hdecimal] at hspares ⊢
    have hdigits := hsim.readDigits_related asciiOnly_isDecimalDigit 8 3 0 hrelated hspares
    exact ⟨congrArg CharLiteral.numericBody hdigits.1, hdigits.2⟩
  · simp only [if_neg hdecimal] at hspares ⊢
    by_cases hhex : current other = 0x78
    · simp only [if_pos hhex] at hspares ⊢
      have hdigits := hsim.readDigits_related asciiOnly_isHexDigit 16 2 0 hadvanced hspares
      exact ⟨congrArg CharLiteral.numericBody hdigits.1, hdigits.2⟩
    · simp only [if_neg hhex] at hspares ⊢
      by_cases hoctal : current other = 0x6F
      · simp only [if_pos hoctal] at hspares ⊢
        have hdigits := hsim.readDigits_related asciiOnly_isOctalDigit 8 3 0 hadvanced hspares
        exact ⟨congrArg CharLiteral.numericBody hdigits.1, hdigits.2⟩
      · simp only [if_neg hoctal]
        split
        · exact ⟨rfl, hadvanced⟩
        · exact ⟨rfl, hrelated⟩

theorem readBody_related {reader : ρ} {other : σ} (hrelated : related reader other)
    (hspares : Spares reserve (CharLiteral.readBody reader).2 := by exact Nat.zero_le _) :
    BodiesAlike (CharLiteral.readBody reader).1 (CharLiteral.readBody other).1 ∧
      related (CharLiteral.readBody reader).2 (CharLiteral.readBody other).2 := by
  have hadvanced := hsim.advance_related hrelated
  have hhere := hspares.of_suffix (CharLiteral.rest_readBody_suffix reader)
  simp only [CharLiteral.readBody, hsim.atEnd_eq hrelated hhere,
    hsim.current_eq_iff hrelated Ascii.backslash rfl hhere,
    hsim.current_eq_iff hrelated Ascii.apostrophe rfl hhere] at hspares ⊢
  by_cases hend : atEnd other = true
  · simp only [if_pos hend]
    exact ⟨.same _, hrelated⟩
  · simp only [if_neg hend] at hspares ⊢
    by_cases hbackslash : current other = Ascii.backslash
    · simp only [if_pos hbackslash] at hspares ⊢
      have hescape := hsim.readEscape_related hadvanced hspares
      exact ⟨hescape.1 ▸ .same _, hescape.2⟩
    · simp only [if_neg hbackslash]
      split
      · exact ⟨.same _, hrelated⟩
      · exact ⟨.plain (hsim.current_alike hrelated hhere), hadvanced⟩

/-- Probes from related states find the same literal and hand back alike characters. -/
theorem probe_related {reader : ρ} {other : σ} (hrelated : related reader other)
    (hspares : Spares reserve (CharLiteral.probe reader).2 := by exact Nat.zero_le _) :
    LiteralsAlike (CharLiteral.probe reader).1 (CharLiteral.probe other).1 ∧
      related (CharLiteral.probe reader).2 (CharLiteral.probe other).2 := by
  have hbody : Spares reserve (CharLiteral.readBody reader).2 := by
    refine hspares.of_suffix ?_
    simp only [CharLiteral.probe]
    split
    · exact List.suffix_rfl
    · split
      · exact rest_advance_suffix _
      · exact List.suffix_rfl
  obtain ⟨hbodies, hstopped⟩ := hsim.readBody_related hrelated hbody
  simp only [CharLiteral.probe, hbodies.eq_malformed_iff,
    hsim.current_eq_iff hstopped Ascii.apostrophe rfl hbody]
  split
  · exact ⟨LiteralsAlike.refl _, hstopped⟩
  · split
    · exact ⟨hbodies.ofBody_eq ▸ LiteralsAlike.refl _, hsim.advance_related hstopped⟩
    · exact ⟨hbodies.ofUnclosed_alike, hstopped⟩

end Characters

/-! ### Quoted texts -/

section QuotedTexts

variable {ρ σ : Type} [Reader ρ] [Reader σ] {related : ρ → σ → Prop} {reserve : Nat}
  (hsim : ReaderSimulation related reserve)

include hsim

/-- Assumes: a tag of bytes that are shown alike. Its closer is matched on both sides or on
neither. -/
theorem matchCloser_related {tag : List UInt8}
    (htag : ∀ byte ∈ tag, ShownAlike related reserve byte) {reader : ρ} {other : σ}
    (hrelated : related reader other)
    (hspares : Spares reserve (QuotedText.matchCloser tag reader).2 := by exact Nat.zero_le _) :
    (QuotedText.matchCloser tag reader).1 = (QuotedText.matchCloser tag other).1 ∧
      related (QuotedText.matchCloser tag reader).2 (QuotedText.matchCloser tag other).2 := by
  have hhere := hspares.of_suffix (QuotedText.rest_matchCloser_suffix tag reader)
  induction tag generalizing reader other with
  | nil =>
    simp only [QuotedText.matchCloser, hsim.current_eq_iff hrelated Ascii.braceClose rfl hhere]
    split
    · exact ⟨rfl, hsim.advance_related hrelated⟩
    · exact ⟨rfl, hrelated⟩
  | cons expected tag ih =>
    have hexpected := htag expected List.mem_cons_self hrelated hhere
    simp only [QuotedText.matchCloser, hexpected] at hspares ⊢
    by_cases hcurrent : current other = expected
    · simp only [if_pos hcurrent] at hspares ⊢
      exact ih (fun byte hbyte ↦ htag byte (List.mem_cons_of_mem _ hbyte))
        (hsim.advance_related hrelated) hspares
        (hspares.of_suffix (QuotedText.rest_matchCloser_suffix tag _))
    · rw [if_neg hcurrent, if_neg hcurrent]
      exact ⟨rfl, hrelated⟩

/-- Assumes: a tag of bytes that are shown alike. A body and its closer are passed alike. -/
theorem findCloser_of_shownAlike {tag : List UInt8}
    (htag : ∀ byte ∈ tag, ShownAlike related reserve byte) {reader : ρ} {other : σ}
    (hrelated : related reader other)
    (hspares : Spares reserve (QuotedText.findCloser tag reader).2 := by exact Nat.zero_le _) :
    (QuotedText.findCloser tag reader).1 = (QuotedText.findCloser tag other).1 ∧
      related (QuotedText.findCloser tag reader).2 (QuotedText.findCloser tag other).2 := by
  fun_induction QuotedText.findCloser tag reader generalizing other
  case case1 reader hend =>
    rw [QuotedText.findCloser, if_pos (hsim.atEnd_eq hrelated hspares ▸ hend)]
    exact ⟨rfl, hrelated⟩
  case case2 reader hend hbar candidate hclosed =>
    have hhere : Spares reserve reader := hspares.of_suffix
      ((QuotedText.rest_matchCloser_suffix tag _).trans (rest_advance_suffix reader))
    have hcandidate := hsim.matchCloser_related htag (hsim.advance_related hrelated) hspares
    rw [QuotedText.findCloser, if_neg (hsim.atEnd_eq hrelated hhere ▸ hend),
      if_pos ((hsim.current_eq_iff hrelated Ascii.bar rfl hhere).mp hbar)]
    simp only [if_pos (hcandidate.1 ▸ hclosed)]
    exact hcandidate
  case case3 reader hend hbar candidate hclosed ih =>
    have hmatch : Spares reserve candidate.2 :=
      hspares.of_suffix (QuotedText.rest_findCloser_suffix tag _)
    have hhere : Spares reserve reader := hmatch.of_suffix
      ((QuotedText.rest_matchCloser_suffix tag _).trans (rest_advance_suffix reader))
    have hcandidate := hsim.matchCloser_related htag (hsim.advance_related hrelated) hmatch
    rw [QuotedText.findCloser.eq_def tag other, if_neg (hsim.atEnd_eq hrelated hhere ▸ hend),
      if_pos ((hsim.current_eq_iff hrelated Ascii.bar rfl hhere).mp hbar)]
    simp only [if_neg (hcandidate.1 ▸ hclosed)]
    exact ih hcandidate.2 hspares
  case case4 reader hend hbar ih =>
    have hhere : Spares reserve reader := hspares.of_suffix
      ((QuotedText.rest_findCloser_suffix tag _).trans (rest_advance_suffix reader))
    rw [QuotedText.findCloser.eq_def tag other, if_neg (hsim.atEnd_eq hrelated hhere ▸ hend),
      if_neg (mt (hsim.current_eq_iff hrelated Ascii.bar rfl hhere).mpr hbar)]
    exact ih (hsim.advance_related hrelated) hspares

/-- Assumes: a tag of tag bytes, which are ASCII. A body and its closer are passed alike. -/
theorem findCloser_related {tag : List UInt8} (htag : ∀ byte ∈ tag, isTagByte byte = true)
    {reader : ρ} {other : σ} (hrelated : related reader other)
    (hspares : Spares reserve (QuotedText.findCloser tag reader).2 := by exact Nat.zero_le _) :
    (QuotedText.findCloser tag reader).1 = (QuotedText.findCloser tag other).1 ∧
      related (QuotedText.findCloser tag reader).2 (QuotedText.findCloser tag other).2 := by
  refine hsim.findCloser_of_shownAlike ?_ hrelated hspares
  intro byte hbyte reader other hshown hhere
  exact hsim.current_eq_iff hshown byte (asciiOnly_isTagByte.isAscii_of_accept (htag byte hbyte))
    hhere

/-- Quoted texts are read alike from related states, in whatever contexts. -/
theorem read_related {reader : ρ} {other : σ} (hrelated : related reader other)
    (context otherContext : Context)
    (hspares : Spares reserve (QuotedText.read reader context).reader := by
      exact Nat.zero_le _) :
    (QuotedText.read reader context).matched = (QuotedText.read other otherContext).matched ∧
      related (QuotedText.read reader context).reader
        (QuotedText.read other otherContext).reader := by
  have htagged : Spares reserve (collectWhile isTagByte reader []).2 := by
    refine hspares.of_suffix ?_
    simp only [QuotedText.read, QuotedText.readOpening, takeWhile_eq, collectWhile_eq]
    by_cases hbar : current (advanceWhile isTagByte reader) = Ascii.bar
    · simp only [if_pos hbar, if_true]
      exact (QuotedText.rest_findCloser_suffix _ _).trans (rest_advance_suffix _)
    · simp only [if_neg hbar, Bool.false_eq_true, if_false]
      exact List.suffix_rfl
  obtain ⟨htaken, hstopped⟩ := hsim.collectWhile_related asciiOnly_isTagByte hrelated [] htagged
  simp only [QuotedText.read, QuotedText.readOpening, takeWhile, ← htaken,
    hsim.current_eq_iff hstopped Ascii.bar rfl htagged] at hspares ⊢
  by_cases hbar : current (collectWhile isTagByte other []).2 = Ascii.bar
  · simp only [if_pos hbar] at hspares ⊢
    have htag : ∀ byte ∈ (collectWhile isTagByte reader []).1.reverse, isTagByte byte = true := by
      intro byte hbyte
      rw [collectWhile_eq, List.append_nil, List.reverse_reverse] at hbyte
      exact List.all_eq_true.mp List.all_takeWhile byte hbyte
    exact hsim.findCloser_related htag (hsim.advance_related hstopped) hspares
  · simp only [if_neg hbar]
    exact ⟨rfl, hstopped⟩

end QuotedTexts

end ReaderSimulation

namespace SeekSimulation

/-! ### String literals -/

section Strings

variable {ρ σ : Type} [SeekReader ρ] [SeekReader σ] {related : ρ → σ → Prop} {reserve : Nat}
  (hsim : SeekSimulation related reserve)

include hsim

/-- Passing the rest of a string literal keeps states related. -/
theorem finish_related {reader : ρ} {other : σ} (hrelated : related reader other)
    (hspares : Spares reserve (StringLiteral.finish reader) := by exact Nat.zero_le _) :
    related (StringLiteral.finish reader) (StringLiteral.finish other) := by
  fun_induction StringLiteral.finish reader generalizing other
  case case1 reader stop hend =>
    have hstop := hsim.seek_related hrelated hspares
    rw [StringLiteral.finish]
    simp only [if_pos (hsim.atEnd_eq hstop hspares ▸ hend)]
    exact hstop
  case case2 reader stop hend hescape ih =>
    have hhere : Spares reserve stop := hspares.of_suffix
      ((StringLiteral.rest_finish_suffix _).trans
        ((rest_advance_suffix _).trans (rest_advance_suffix stop)))
    have hstop := hsim.seek_related hrelated hhere
    rw [StringLiteral.finish.eq_def other]
    simp only [if_neg (hsim.atEnd_eq hstop hhere ▸ hend),
      if_pos ((hsim.current_eq_iff hstop Ascii.backslash rfl hhere).mp hescape)]
    exact ih (hsim.advance_related (hsim.advance_related hstop)) hspares
  case case3 reader stop hend hescape hquote =>
    have hhere : Spares reserve stop := hspares.of_suffix (rest_advance_suffix stop)
    have hstop := hsim.seek_related hrelated hhere
    rw [StringLiteral.finish]
    simp only [if_neg (hsim.atEnd_eq hstop hhere ▸ hend),
      if_neg (mt (hsim.current_eq_iff hstop Ascii.backslash rfl hhere).mpr hescape),
      if_pos ((hsim.current_eq_iff hstop Ascii.doubleQuote rfl hhere).mp hquote)]
    exact hsim.advance_related hstop
  case case4 reader stop hend hescape hquote =>
    have hstop := hsim.seek_related hrelated hspares
    rw [StringLiteral.finish]
    simp only [if_neg (hsim.atEnd_eq hstop hspares ▸ hend),
      if_neg (mt (hsim.current_eq_iff hstop Ascii.backslash rfl hspares).mpr hescape),
      if_neg (mt (hsim.current_eq_iff hstop Ascii.doubleQuote rfl hspares).mpr hquote)]
    exact hstop

end Strings

end SeekSimulation

end GrammarFragments
