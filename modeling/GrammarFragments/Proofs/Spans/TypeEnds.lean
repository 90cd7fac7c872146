import Mathlib.Order.Bounds.Defs
import Mathlib.Tactic.SplitIfs
import GrammarFragments.Proofs.Failure
import GrammarFragments.Proofs.Nesting.Endings
import GrammarFragments.Proofs.Spans.Placement

/-!
Where a type ends, by the places of a text alone. The comments of the text are struck out
(`strikeComments`). A `>` that is left ends the type unless a minus sign or an opening bracket
stands right in front of it, and is left too (`TerminatorAt`). The recognizer of types knows no
places: it passes units, of which an arrow is one and a comment is another, and stops in front of
the first unit that is a `>`.

A unit holds no such `>`, and it does not shield the one behind it (`Harmless`): the last character
of a comment is struck out, an arrow ends with its own `>`, and a single minus sign or bracket is a
unit by itself only if something else follows. So the `>` of what is left after a unit are those of
the text, moved by the length of the unit (`Harmless.terminatorAt_iff`). Main statement:
`readType_first_terminator`.
-/

set_option autoImplicit false
set_option relaxedAutoImplicit false

namespace GrammarFragments

open Reader

/-! ### Texts without their comments -/

/-- The text with its comments struck out: at every place outside of them the character there, and
nothing at the places of a comment. Comments are met from left to right, each at a parenthesis with
a star behind it that belongs to no earlier one, and reach as far as they are read. -/
def strikeComments : List UInt8 → List (Option UInt8)
  | [] => []
  | byte :: chars =>
    if byte = Ascii.parenOpen ∧ chars.head? = some Ascii.star then
      let left := (readComment chars .initial).reader
      List.replicate (chars.length + 1 - left.length) none ++ strikeComments left
    else some byte :: strikeComments chars
termination_by chars => chars.length
decreasing_by
  · exact Nat.lt_succ_of_le (rest_readComment_suffix chars .initial).length_le
  · exact Nat.lt_succ_self _

theorem strikeComments_of_comment {chars : List UInt8} (hstar : chars.head? = some Ascii.star) :
    strikeComments (Ascii.parenOpen :: chars) =
      List.replicate (chars.length + 1 - (readComment chars .initial).reader.length) none ++
        strikeComments (readComment chars .initial).reader := by
  rw [strikeComments, if_pos ⟨rfl, hstar⟩]

theorem strikeComments_cons {byte : UInt8} {chars : List UInt8}
    (hplain : ¬ (byte = Ascii.parenOpen ∧ chars.head? = some Ascii.star)) :
    strikeComments (byte :: chars) = some byte :: strikeComments chars := by
  rw [strikeComments, if_neg hplain]

/-- A `>` starts no comment. -/
theorem strikeComments_greater (chars : List UInt8) :
    strikeComments (Ascii.greater :: chars) = some Ascii.greater :: strikeComments chars :=
  strikeComments_cons fun hcomment ↦ absurd hcomment.1 (by decide)

/-- What is left at the first place is the first character. -/
theorem head?_of_strikeComments {chars : List UInt8} {byte : UInt8}
    (hfirst : (strikeComments chars)[0]? = some (some byte)) : chars.head? = some byte := by
  cases chars with
  | nil =>
    rw [strikeComments] at hfirst
    cases hfirst
  | cons first chars =>
    by_cases hcomment : first = Ascii.parenOpen ∧ chars.head? = some Ascii.star
    · obtain ⟨rfl, hstar⟩ := hcomment
      have hleft : (readComment chars .initial).reader.length ≤ chars.length :=
        (rest_readComment_suffix chars .initial).length_le
      rw [strikeComments_of_comment hstar, Nat.succ_sub hleft, List.replicate_succ] at hfirst
      cases hfirst
    · rw [strikeComments_cons hcomment, List.getElem?_cons_zero, Option.some_inj] at hfirst
      exact hfirst

/-! ### Terminators -/

/-- Right in front of the place stands a minus sign or an opening bracket that is not struck out. -/
def ShieldedAt (struck : List (Option UInt8)) : Nat → Prop
  | 0 => False
  | before + 1 => struck[before]? = some (some Ascii.minus) ∨
    struck[before]? = some (some Ascii.bracketOpen)

/-- At the place stands a `>` that ends a type: it is not struck out, and nothing shields it. -/
def TerminatorAt (struck : List (Option UInt8)) (place : Nat) : Prop :=
  struck[place]? = some (some Ascii.greater) ∧ ¬ ShieldedAt struck place

instance (struck : List (Option UInt8)) : ∀ place, Decidable (ShieldedAt struck place)
  | 0 => inferInstanceAs (Decidable False)
  | before + 1 => inferInstanceAs (Decidable (struck[before]? = some (some Ascii.minus) ∨
    struck[before]? = some (some Ascii.bracketOpen)))

instance (struck : List (Option UInt8)) (place : Nat) : Decidable (TerminatorAt struck place) :=
  inferInstanceAs (Decidable (_ ∧ _))

/-- The characters of a unit, in front of others, hold no terminator, and if a `>` follows them they
do not shield it. -/
structure Harmless (unit struck : List (Option UInt8)) : Prop where
  no_terminator : ∀ place, place < unit.length → ¬ TerminatorAt (unit ++ struck) place
  no_shield : struck[0]? = some (some Ascii.greater) → ¬ ShieldedAt (unit ++ struck) unit.length

namespace Harmless

variable {unit struck : List (Option UInt8)}

/-- The terminators behind such characters are those of the others, by as much further on. -/
theorem terminatorAt_iff (hharmless : Harmless unit struck) (place : Nat) :
    TerminatorAt (unit ++ struck) place ↔
      ∃ later, place = unit.length + later ∧ TerminatorAt struck later := by
  have hmoved : ∀ later, TerminatorAt (unit ++ struck) (unit.length + later) ↔
      TerminatorAt struck later := by
    intro later
    have hthere : (unit ++ struck)[unit.length + later]? = struck[later]? := by
      rw [List.getElem?_append_right (Nat.le_add_right _ _), Nat.add_sub_cancel_left]
    cases later with
    | zero =>
      rw [TerminatorAt, TerminatorAt, hthere]
      exact and_congr_right fun hgreater ↦ iff_of_true (hharmless.no_shield hgreater) id
    | succ before =>
      have hbefore : (unit ++ struck)[unit.length + before]? = struck[before]? := by
        rw [List.getElem?_append_right (Nat.le_add_right _ _), Nat.add_sub_cancel_left]
      rw [TerminatorAt, TerminatorAt, hthere, ← Nat.add_assoc, ShieldedAt, ShieldedAt, hbefore]
  constructor
  · intro hterminator
    rcases Nat.lt_or_ge place unit.length with hinside | hbehind
    · exact absurd hterminator (hharmless.no_terminator place hinside)
    · obtain ⟨later, rfl⟩ := Nat.exists_eq_add_of_le hbehind
      exact ⟨later, rfl, (hmoved later).mp hterminator⟩
  · rintro ⟨later, rfl, hterminator⟩
    exact (hmoved later).mpr hterminator

/-- The first terminator behind such characters is the first one of the others. -/
theorem isLeast_terminator (hharmless : Harmless unit struck) {place : Nat}
    (hleast : IsLeast {place | TerminatorAt struck place} place) :
    IsLeast {place | TerminatorAt (unit ++ struck) place} (unit.length + place) := by
  refine ⟨(hharmless.terminatorAt_iff _).mpr ⟨place, rfl, hleast.1⟩, ?_⟩
  intro other hother
  obtain ⟨later, rfl, hlater⟩ := (hharmless.terminatorAt_iff other).mp hother
  exact Nat.add_le_add_left (hleast.2 hlater) _

/-- Comments are struck out. -/
theorem comment (length : Nat) (struck : List (Option UInt8)) :
    Harmless (List.replicate length none) struck := by
  have hstruck : ∀ {place : Nat} {byte : UInt8}, place < length →
      (List.replicate length none ++ struck)[place]? ≠ some (some byte) := by
    intro place byte hplace
    rw [List.getElem?_append_left (by rw [List.length_replicate]; exact hplace),
      List.getElem?_replicate_of_lt hplace]
    nofun
  constructor
  · intro place hplace hterminator
    rw [List.length_replicate] at hplace
    exact hstruck hplace hterminator.1
  · rw [List.length_replicate]
    intro _ hshielded
    cases length with
    | zero => exact hshielded
    | succ before =>
      have hlast := before.lt_succ_self
      exact hshielded.elim (hstruck hlast) (hstruck hlast)

/-- The `>` of an arrow or of an open variant is shielded by the character in front of it, and
shields nothing itself. -/
theorem arrow {first : UInt8} (hfirst : first = Ascii.minus ∨ first = Ascii.bracketOpen)
    (struck : List (Option UInt8)) : Harmless [some first, some Ascii.greater] struck := by
  constructor
  · rintro (_ | _ | place) hplace ⟨hgreater, hopen⟩
    · rcases hfirst with rfl | rfl
      · cases hgreater
      · cases hgreater
    · refine hopen ?_
      rcases hfirst with rfl | rfl
      · exact .inl rfl
      · exact .inr rfl
    · simp only [List.length_cons, List.length_nil] at hplace
      omega
  · rintro - (hminus | hopen)
    · cases hminus
    · cases hopen

/-- Assumes: a single character other than `>`, which is not a minus sign or an opening bracket with
a `>` behind it. -/
theorem single {byte : UInt8} (hbyte : byte ≠ Ascii.greater)
    (hnext : byte = Ascii.minus ∨ byte = Ascii.bracketOpen →
      struck[0]? ≠ some (some Ascii.greater)) : Harmless [some byte] struck := by
  constructor
  · intro place hplace hterminator
    obtain rfl : place = 0 := Nat.lt_one_iff.mp hplace
    exact hbyte (Option.some_inj.mp (Option.some_inj.mp hterminator.1))
  · intro hgreater hshielded
    refine hnext ?_ hgreater
    exact hshielded.imp (fun hminus ↦ Option.some_inj.mp (Option.some_inj.mp hminus))
      fun hopen ↦ Option.some_inj.mp (Option.some_inj.mp hopen)

end Harmless

/-! ### Units of a type -/

theorem passTypeUnit_cons (byte : UInt8) (chars : List UInt8) (context : Context) :
    passTypeUnit (byte :: chars) context =
      if byte = Ascii.parenOpen then
        ((readComment chars context).reader, (readComment chars context).context)
      else if (byte = Ascii.minus ∨ byte = Ascii.bracketOpen) ∧ current chars = Ascii.greater then
        (advance chars, context)
      else (chars, context) := rfl

/-- The characters that a unit of a type leaves, if it is not a comment: all behind the first one,
or behind the `>` of an arrow or of an open variant. -/
theorem passTypeUnit_of_no_comment {byte : UInt8} {chars : List UInt8} (context : Context)
    (hplain : ¬ (byte = Ascii.parenOpen ∧ chars.head? = some Ascii.star)) :
    ((byte = Ascii.minus ∨ byte = Ascii.bracketOpen) ∧
        chars = Ascii.greater :: (passTypeUnit (byte :: chars) context).1) ∨
      (¬ ((byte = Ascii.minus ∨ byte = Ascii.bracketOpen) ∧ chars.head? = some Ascii.greater) ∧
        (passTypeUnit (byte :: chars) context).1 = chars) := by
  have hhead : ∀ {next : UInt8}, next ≠ 0 → (current chars = next ↔ chars.head? = some next) :=
    fun hzero ↦ current_eq_iff_head? hzero
  rw [← hhead (by decide)] at hplain ⊢
  rw [passTypeUnit_cons]
  by_cases hparen : byte = Ascii.parenOpen
  · subst hparen
    refine .inr ⟨?_, ?_⟩
    · rintro ⟨hminus | hopen, -⟩
      · cases hminus
      · cases hopen
    · rw [if_pos rfl, readComment, if_neg fun hstar ↦ hplain ⟨rfl, hstar⟩]
  · rw [if_neg hparen]
    split_ifs with harrow
    · exact .inl ⟨harrow.1, (cons_rest_advance harrow.2 (by decide)).symm⟩
    · exact .inr ⟨harrow, rfl⟩

/-- Assumes: a text that is not at its end and not at a `>`. One unit of a type is passed, and its
characters are harmless. -/
theorem harmless_passTypeUnit {chars : List UInt8} (context : Context)
    (hend : ¬ atEnd chars = true) (hgreater : ¬ current chars = Ascii.greater) :
    ∃ unit, strikeComments chars = unit ++ strikeComments (passTypeUnit chars context).1 ∧
      Harmless unit (strikeComments (passTypeUnit chars context).1) ∧
      (passTypeUnit chars context).1 = chars.drop unit.length := by
  cases chars with
  | nil => exact absurd rfl hend
  | cons byte chars =>
    by_cases hcomment : byte = Ascii.parenOpen ∧ chars.head? = some Ascii.star
    · obtain ⟨rfl, hstar⟩ := hcomment
      have hleft : (passTypeUnit (Ascii.parenOpen :: chars) context).1 =
          (readComment chars .initial).reader :=
        rest_readComment chars context .initial
      have hsuffix : (readComment chars .initial).reader <:+ chars :=
        rest_readComment_suffix chars .initial
      rw [hleft]
      refine ⟨_, strikeComments_of_comment hstar, .comment _ _, ?_⟩
      rw [List.length_replicate]
      exact List.suffix_iff_eq_drop.mp (hsuffix.trans (List.suffix_cons _ chars))
    · rw [strikeComments_cons hcomment]
      rcases passTypeUnit_of_no_comment context hcomment with ⟨hfirst, hchars⟩ | ⟨hnone, hleft⟩
      · generalize (passTypeUnit (byte :: chars) context).1 = left at hchars ⊢
        subst hchars
        refine ⟨[some byte, some Ascii.greater], ?_, .arrow hfirst _, rfl⟩
        rw [strikeComments_greater]
        rfl
      · rw [hleft]
        refine ⟨[some byte], rfl, .single hgreater ?_, rfl⟩
        intro hfirst hnext
        exact hnone ⟨hfirst, head?_of_strikeComments hnext⟩

/-! ### Whole types -/

/-- The first terminator of a text is where a type that is found ends. -/
theorem readType_of_matched {chars : List UInt8} {context : Context}
    (hmatched : (readType chars context).matched = true) :
    ∃ place, IsLeast {place | TerminatorAt (strikeComments chars) place} place ∧
      (readType chars context).reader = chars.drop place := by
  fun_induction readType chars context with
  | case1 chars context hend => cases hmatched
  | case2 chars context hend hgreater =>
    refine ⟨0, ⟨⟨?_, id⟩, fun _ _ ↦ Nat.zero_le _⟩, rfl⟩
    obtain ⟨left, rfl⟩ : ∃ left, chars = Ascii.greater :: left :=
      ⟨_, (cons_rest_advance hgreater (by decide)).symm⟩
    rw [strikeComments_greater]
    rfl
  | case3 chars context hend hgreater passed ih =>
    obtain ⟨unit, hstruck, hharmless, hleft⟩ := harmless_passTypeUnit context hend hgreater
    obtain ⟨place, hleast, hreader⟩ := ih hmatched
    refine ⟨unit.length + place, ?_, ?_⟩
    · rw [hstruck]
      exact hharmless.isLeast_terminator hleast
    · rw [hreader, ← List.drop_drop, ← hleft]

/-- A text in which no type ends has no terminator. -/
theorem readType_of_not_matched {chars : List UInt8} {context : Context}
    (hmatched : (readType chars context).matched = false) (place : Nat) :
    ¬ TerminatorAt (strikeComments chars) place := by
  fun_induction readType chars context generalizing place with
  | case1 chars context hend =>
    obtain rfl : chars = [] := List.isEmpty_iff.mp hend
    rw [strikeComments]
    rintro ⟨hgreater, -⟩
    cases hgreater
  | case2 chars context hend hgreater => cases hmatched
  | case3 chars context hend hgreater passed ih =>
    obtain ⟨unit, hstruck, hharmless, -⟩ := harmless_passTypeUnit context hend hgreater
    rw [hstruck, hharmless.terminatorAt_iff]
    rintro ⟨later, -, hlater⟩
    exact ih hmatched later hlater

/-- For every reader and every context. A type is found exactly if the text has a terminator: a `>`
outside of its comments without a minus sign or an opening bracket right in front of it that is
outside of them too. Then the reader stops at the first terminator, which is not passed, and the
token ends there. Otherwise the reader stops at the end of the text. -/
theorem readType_first_terminator {ρ : Type} [SeekReader ρ] (reader : ρ) (context : Context) :
    let struck := strikeComments (rest reader)
    let outcome := readType reader context
    (outcome.matched = true ↔ ∃ place, TerminatorAt struck place) ∧
      (∀ place, IsLeast {place | TerminatorAt struck place} place →
        ∃ stopped, outcome.reader = commit stopped ∧ rest stopped = (rest reader).drop place ∧
          current stopped = Ascii.greater) ∧
      (outcome.matched = false → atEnd outcome.reader = true) := by
  intro struck outcome
  obtain ⟨hmatched, hreader⟩ := rest_readType reader context context
  have hfound : ∀ place, TerminatorAt struck place → outcome.matched = true := by
    intro place hplace
    by_contra hnone
    rw [Bool.not_eq_true, hmatched] at hnone
    exact readType_of_not_matched hnone place hplace
  have hends : outcome.matched = true → ∃ place,
      IsLeast {place | TerminatorAt struck place} place ∧
        rest outcome.reader = (rest reader).drop place := by
    intro hfound
    rw [hreader]
    exact readType_of_matched (hmatched.symm.trans hfound)
  refine ⟨⟨?_, ?_⟩, ?_, atEnd_readType⟩
  · intro hfound
    obtain ⟨place, hleast, -⟩ := hends hfound
    exact ⟨place, hleast.1⟩
  · rintro ⟨place, hplace⟩
    exact hfound place hplace
  · intro place hleast
    have hmatched := hfound place hleast.1
    obtain ⟨stopped, hgreater, hstopped⟩ := readType_eq_commit hmatched
    obtain ⟨first, hfirst, hdrop⟩ := hends hmatched
    refine ⟨stopped, hstopped, ?_, hgreater⟩
    have hsame : first = place := Nat.le_antisymm (hfirst.2 hleast.1) (hleast.2 hfirst.1)
    rw [← rest_commit, ← hstopped, hdrop, hsame]

/-- A type with arrows, an open variant and a `>` in a string of a comment. The comment between its
last minus sign and a `>` is no part of an arrow, so this `>` ends the type, and not the one behind
it. If the comment is not closed, nothing ends the type. -/
theorem readType_first_terminator_witness :
    let reader := (Source.mk "-->[>é(*>\")>\"*)->-(*-*)>>").reader
    let unclosed := (Source.mk "->-(*-*>>").reader
    (IsLeast {place | TerminatorAt (strikeComments (rest reader)) place} 23 ∧
      ∃ stopped, (readType reader .initial).reader = commit stopped ∧
        rest stopped = [0x3E, 0x3E] ∧ current stopped = Ascii.greater) ∧
      (readType unclosed .initial).matched = false ∧
        atEnd (readType unclosed .initial).reader = true := by
  intro reader unclosed
  have hleast : IsLeast {place | TerminatorAt (strikeComments (rest reader)) place} 23 := by
    have hhere : TerminatorAt (strikeComments (rest reader)) 23 := by decide +kernel
    have hbefore : ∀ other < 23, ¬ TerminatorAt (strikeComments (rest reader)) other := by
      decide +kernel
    exact ⟨hhere, fun other hother ↦ Nat.le_of_not_lt fun hless ↦ hbefore other hless hother⟩
  have hunclosed : (readType unclosed .initial).matched = false := by decide +kernel
  obtain ⟨-, hstops, -⟩ := readType_first_terminator reader .initial
  obtain ⟨-, -, hfails⟩ := readType_first_terminator unclosed .initial
  refine ⟨⟨hleast, ?_⟩, hunclosed, hfails hunclosed⟩
  obtain ⟨stopped, hreader, hrest, hgreater⟩ := hstops 23 hleast
  refine ⟨stopped, hreader, ?_, hgreater⟩
  rw [hrest]
  decide +kernel

end GrammarFragments
