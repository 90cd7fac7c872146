import Mathlib.Data.List.Forall2
import Mathlib.Tactic.SplitIfs
import GrammarFragments.Proofs.Printed.Characters
import GrammarFragments.Proofs.Snapshots.Codec

/-!
A quoted text that is interrupted behind its opening. The tag of the opening is all that the closing
has to know. It is made of tag bytes, so a snapshot taken there can be read back
(`readOpening_wellTagged`), and another reader over what is left of the text, of whatever kind,
finds the closer where the first one would have found it: two readers over the same text are not
told apart even though they may report a character outside of ASCII by different bytes
(`sameText_simulation`). Such a reader is a fresh one over a copy of the text that is left, be it of
the bytes or of the code points (`sameText_fresh`).

Main statement: `interrupted_quotedText`.
-/

set_option autoImplicit false
set_option relaxedAutoImplicit false

namespace GrammarFragments

open Reader

/-- The two readers have the same text still to read: alike characters, one for one. -/
def SameText {ρ σ : Type} [Reader ρ] [Reader σ] (reader : ρ) (other : σ) : Prop :=
  List.Forall₂ Alike (rest reader) (rest other)

section SameText

variable {ρ σ : Type} [Reader ρ] [Reader σ]

/-- Both readers are at the end of the text, or both have a character to read, and alike ones. -/
theorem SameText.nil_or_cons {reader : ρ} {other : σ} (hsame : SameText reader other) :
    (rest reader = [] ∧ rest other = []) ∨
      ∃ first chars second others, rest reader = first :: chars ∧ rest other = second :: others ∧
        Alike first second ∧ List.Forall₂ Alike chars others := by
  unfold SameText at hsame
  generalize rest reader = chars at hsame ⊢
  generalize rest other = others at hsame ⊢
  cases hsame with
  | nil => exact .inl ⟨rfl, rfl⟩
  | cons halike htail => exact .inr ⟨_, _, _, _, rfl, rfl, halike, htail⟩

/-- Readers over the same text are not told apart. -/
theorem sameText_simulation : ReaderSimulation (SameText : ρ → σ → Prop) where
  current_alike hsame _ := by
    rw [current_eq_headD, current_eq_headD]
    rcases hsame.nil_or_cons with ⟨hchars, hothers⟩ | ⟨_, _, _, _, hchars, hothers, halike, -⟩
    · rw [hchars, hothers]
      exact Alike.refl 0
    · rw [hchars, hothers]
      exact halike
  atEnd_eq hsame _ := by
    rw [atEnd_eq_isEmpty, atEnd_eq_isEmpty]
    rcases hsame.nil_or_cons with ⟨hchars, hothers⟩ | ⟨_, _, _, _, hchars, hothers, -, -⟩
    · rw [hchars, hothers]
    · rw [hchars, hothers, List.isEmpty_cons, List.isEmpty_cons]
  advance_related hsame := by
    unfold SameText
    rw [rest_advance, rest_advance]
    rcases hsame.nil_or_cons with ⟨hchars, hothers⟩ | ⟨_, _, _, _, hchars, hothers, -, htail⟩
    · rw [hchars, hothers]
      exact .nil
    · rw [hchars, hothers]
      exact htail
  commit_related hsame := by
    unfold SameText
    rw [rest_commit, rest_commit]
    exact hsame

/-- Assumes: two readers over the same text, and later states of both that again have the same text
still to read. The same number of characters was passed. -/
theorem SameText.exists_drop {reader later : ρ} {other otherLater : σ}
    (hsame : SameText reader other) (hlater : SameText later otherLater)
    (hsuffix : rest later <:+ rest reader) (hotherSuffix : rest otherLater <:+ rest other) :
    ∃ count, rest later = (rest reader).drop count ∧ rest otherLater = (rest other).drop count := by
  refine ⟨(rest reader).length - (rest later).length, List.suffix_iff_eq_drop.mp hsuffix, ?_⟩
  rw [hsame.length_eq, hlater.length_eq]
  exact List.suffix_iff_eq_drop.mp hotherSuffix

end SameText

/-- Assumes: a reader of a source that fits, behind `front` and in front of `back`. A fresh reader
of `back` alone has the same text to read, and so has a fresh lexer of a host. -/
theorem sameText_fresh {reader : ByteReader} (hfits : reader.source.Fits) {front back : List Char}
    (htext : reader.source.text.toList = front ++ back)
    (hoffset : reader.offset = Source.encodedSize front) :
    SameText reader (Source.mk (String.ofList back)).reader ∧
      SameText reader (HostLexer.ofText (String.ofList back)) := by
  have hrest : rest reader = Source.reported back := by
    show reader.source.charsFrom reader.offset = _
    rw [hoffset, hfits.charsFrom_encodedSize htext]
  have hfresh : rest (Source.mk (String.ofList back)).reader = Source.reported back := by
    have hwhole : (Source.mk (String.ofList back)).text.toList = [] ++ back := String.toList_ofList
    have hpart : Source.Fits ⟨String.ofList back⟩ := by
      refine Nat.lt_of_le_of_lt ?_ hfits
      rw [← Source.length_flatMap_encode, ← Source.length_flatMap_encode, htext,
        List.flatMap_append, List.length_append, String.toList_ofList]
      exact Nat.le_add_left _ _
    rw [← hpart.charsFrom_encodedSize hwhole]
    exact congrArg _ (Nat.zero_min _)
  have hlexer : rest (HostLexer.ofText (String.ofList back)) =
      back.map fun char ↦ HostLexer.reportedByte char.toNat := by
    show HostLexer.reportedRest _ = _
    simp [HostLexer.reportedRest, HostLexer.ofText, HostLexer.ofCodes]
  constructor
  · rw [SameText, hrest, hfresh]
    exact List.forall₂_same.mpr fun byte _ ↦ Alike.refl byte
  · rw [SameText, hrest, hlexer, Source.reported, List.forall₂_map_left_iff,
      List.forall₂_map_right_iff]
    refine List.forall₂_same.mpr fun char _ ↦ ?_
    obtain ⟨lead, trailing, hencode, hwidth, -⟩ := Source.exists_lead_trailing char
    rw [Source.leadByte, hencode]
    exact alike_lead_reportedByte hencode hwidth

variable {ρ : Type} [Reader ρ] {reader : ρ} {context : Context}

/-- An opening that is found leaves a tag that a snapshot can hold. -/
theorem QuotedText.readOpening_wellTagged (hopened : (readOpening reader context).matched = true) :
    (readOpening reader context).context.WellTagged := by
  simp only [readOpening, takeWhile_eq] at hopened ⊢
  split_ifs at hopened ⊢ with hbar
  intro byte hbyte
  exact List.all_eq_true.mp List.all_takeWhile byte hbyte

/-- Assumes: an opening that is found. The whole is read by reading the closing after it. -/
theorem QuotedText.read_of_opened (hopened : (readOpening reader context).matched = true) :
    read reader context =
      readClosing (readOpening reader context).reader (readOpening reader context).context := by
  rw [read, if_pos hopened]

/-- Assumes: an opening that is found. A snapshot of the context behind it can be read back, as that
context. With what was read back, a fresh reader of any kind over the text that is left finds the
closing exactly if the quoted text as a whole is found complete; it passes as many characters of the
text and leaves the same context. -/
theorem interrupted_quotedText (reader : ρ) (context : Context)
    (hopened : (QuotedText.readOpening reader context).matched = true) :
    let opened := QuotedText.readOpening reader context
    let whole := QuotedText.read reader context
    ∃ restored, Context.decode opened.context.encode = .ok restored ∧ restored = opened.context ∧
      ∀ (σ : Type) [Reader σ] (fresh : σ), SameText opened.reader fresh →
        let closed := QuotedText.readClosing fresh restored
        closed.matched = whole.matched ∧ closed.context = whole.context ∧
          ∃ count, rest whole.reader = (rest opened.reader).drop count ∧
            rest closed.reader = (rest fresh).drop count := by
  intro opened whole
  have hwell : opened.context.WellTagged := QuotedText.readOpening_wellTagged hopened
  refine ⟨opened.context, Context.decode_encode hwell, rfl, ?_⟩
  intro σ _ fresh hsame closed
  have hwhole : whole = QuotedText.readClosing opened.reader opened.context :=
    QuotedText.read_of_opened hopened
  obtain ⟨hmatched, hlater⟩ := sameText_simulation.findCloser_related hwell hsame
  rw [hwhole]
  exact ⟨hmatched.symm, rfl, hsame.exists_drop hlater (QuotedText.rest_findCloser_suffix _ _)
    (QuotedText.rest_findCloser_suffix _ _)⟩

/-- A quoted text with a false closer and a character outside of ASCII, interrupted behind its
opening: it is opened as a source and closed by the lexer of a host. -/
theorem interrupted_quotedText_witness :
    let reader := (Source.mk "\x7ba_|é|a\x7d|a_\x7dx").readerAt 1
    let opened := QuotedText.readOpening reader .initial
    let fresh := HostLexer.ofText "é|a\x7d|a_\x7dx"
    opened.matched = true ∧ SameText opened.reader fresh ∧
      ∃ restored, Context.decode opened.context.encode = .ok restored ∧
        (QuotedText.readClosing fresh restored).matched = true := by
  intro reader opened fresh
  have hopened : opened.matched = true := by decide +kernel
  have htext : opened.reader.source.text.toList =
      ['\x7b', 'a', '_', '|'] ++ ['é', '|', 'a', '\x7d', '|', 'a', '_', '\x7d', 'x'] := by
    decide +kernel
  have hsame : SameText opened.reader fresh :=
    (sameText_fresh (by decide +kernel) htext (by decide +kernel)).2
  have hwhole : (QuotedText.read reader .initial).matched = true := by decide +kernel
  obtain ⟨restored, hdecode, -, hclosed⟩ := interrupted_quotedText reader .initial hopened
  exact ⟨hopened, hsame, restored, hdecode, (hclosed HostLexer fresh hsame).1.trans hwhole⟩

end GrammarFragments
