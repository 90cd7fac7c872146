import Mathlib.Tactic.SplitIfs
import GrammarFragments.Scan.Basic

/-!
What a scan can try once the blanks have been skipped, said once (`Attempt.start_tried`): a comment,
one of the three recognizers with an extent, a double quote, or nothing. Each comes with what must
be the case for it to be tried, and with the reader from which it starts: a parenthesis that opens
no comment may have been passed before.

Main statement: the kind that is found is one of those that were asked for
(`permits_of_kind?_eq_some`).
-/

set_option autoImplicit false
set_option relaxedAutoImplicit false

namespace GrammarFragments

open Reader

namespace Attempt

variable {ρ : Type} [SeekReader ρ]

/-- The readers from which the kinds other than comments are tried. -/
inductive Entered (reader : ρ) : ρ → Prop
  | here : Entered reader reader
  /-- The test for a comment has passed a parenthesis. -/
  | afterParen (hparen : current reader = Ascii.parenOpen) : Entered reader (advance reader)

/-- The attempts that a scan can make, each with its conditions. -/
inductive Tried (requested : Request) (reader : ρ) (context : Context) : Attempt ρ → Prop
  | comment (houtside : context.inString = false) (hpermits : requested.permits .comment = true)
    (hparen : current reader = Ascii.parenOpen) (hstar : current (advance reader) = Ascii.star) :
    Tried requested reader context (ofComment (advance reader) context)
  | code {entered : ρ} (hentered : Entered reader entered)
    (hpermits : requested.permits .code = true) :
    Tried requested reader context (ofOutcome .code (readCode entered context))
  | typeExpr {entered : ρ} (hentered : Entered reader entered)
    (hpermits : requested.permits .typeExpr = true) :
    Tried requested reader context (ofOutcome .typeExpr (readType entered context))
  | payload {entered : ρ} (hentered : Entered reader entered)
    (hpermits : requested.permits .payload = true) :
    Tried requested reader context (ofOutcome .payload (readPayload entered context))
  | quoteMark (hpermits : requested.permits .quoteMark = true)
    (hquote : current reader = Ascii.doubleQuote) :
    Tried requested reader context (toggleString reader context)
  | nothing {entered : ρ} (hentered : Entered reader entered) :
    Tried requested reader context ⟨none, entered, context⟩

/-- The kinds other than comments are tried in their order. -/
theorem afterComment_tried (requested : Request) {reader entered : ρ} (context : Context)
    (hentered : Entered reader entered) :
    Tried requested reader context
      (afterComment requested (current reader) entered context) := by
  unfold afterComment
  split_ifs with hcode htype hpayload hquote
  · exact .code hentered hcode
  · exact .typeExpr hentered htype
  · exact .payload hentered hpayload
  · cases hentered with
    | here => exact .quoteMark hquote.1 hquote.2
    | afterParen hparen =>
      have hsame := hparen.symm.trans hquote.2
      exact absurd hsame (by decide)
  · exact .nothing hentered

/-- Every scan makes one of the listed attempts. -/
theorem start_tried (requested : Request) (reader : ρ) (context : Context) :
    Tried requested reader context (start requested reader context) := by
  simp only [start]
  split_ifs with hcomment hstar
  · exact .comment hcomment.1 hcomment.2.1 hcomment.2.2 hstar
  · exact afterComment_tried requested context (.afterParen hcomment.2.2)
  · exact afterComment_tried requested context .here

section Requested

variable {requested : Request} {reader : ρ} {context : Context}

/-- Where no comment can start, the other kinds are tried. -/
theorem start_of_not_comment
    (hnone : ¬ (context.inString = false ∧ requested.permits .comment = true ∧
      current reader = Ascii.parenOpen)) :
    start requested reader context = afterComment requested (current reader) reader context := by
  simp only [start, if_neg hnone]

/-- Where a comment starts, it is tried, behind its parenthesis. -/
theorem start_of_comment (hcomment : context.inString = false ∧ requested.permits .comment = true ∧
      current reader = Ascii.parenOpen) (hstar : current (advance reader) = Ascii.star) :
    start requested reader context = ofComment (advance reader) context := by
  simp only [start, if_pos hcomment, if_pos hstar]

theorem not_comment_of_permits (hcomment : requested.permits .comment = false) :
    ¬ (context.inString = false ∧ requested.permits .comment = true ∧
      current reader = Ascii.parenOpen) := by
  rw [hcomment]
  exact fun hstarts ↦ Bool.false_ne_true hstarts.2.1

/-- Asked for code, and not for comments, a scan reads code. -/
theorem start_of_code (hcomment : requested.permits .comment = false)
    (hcode : requested.permits .code = true) :
    start requested reader context = ofOutcome .code (readCode reader context) := by
  rw [start_of_not_comment (not_comment_of_permits hcomment), afterComment, if_pos hcode]

/-- Asked for payloads, and for no kind that comes before them, a scan reads a payload. -/
theorem start_of_payload (hcomment : requested.permits .comment = false)
    (hcode : requested.permits .code = false) (htype : requested.permits .typeExpr = false)
    (hpayload : requested.permits .payload = true) :
    start requested reader context = ofOutcome .payload (readPayload reader context) := by
  rw [start_of_not_comment (not_comment_of_permits hcomment), afterComment,
    if_neg (Bool.eq_false_iff.mp hcode), if_neg (Bool.eq_false_iff.mp htype), if_pos hpayload]

end Requested

omit [SeekReader ρ] in
/-- An attempt finds no other kind than the one it tried, and finds it only if it matched. -/
theorem kind?_ofOutcome_eq_some {kind found : FragmentKind} {outcome : Outcome ρ}
    (hfound : (ofOutcome kind outcome).kind? = some found) :
    found = kind ∧ outcome.matched = true := by
  rw [ofOutcome, kind?] at hfound
  cases hmatched : outcome.matched with
  | true =>
    rw [hmatched] at hfound
    exact ⟨(Option.some.inj hfound).symm, rfl⟩
  | false =>
    rw [hmatched] at hfound
    cases hfound

/-- A kind that is found was asked for. -/
theorem permits_of_kind?_eq_some {requested : Request} {reader : ρ} {context : Context}
    {attempt : Attempt ρ} {kind : FragmentKind} (htried : Tried requested reader context attempt)
    (hkind : attempt.kind? = some kind) : requested.permits kind = true := by
  cases htried with
  | comment houtside hpermits hparen hstar =>
    rw [(kind?_ofOutcome_eq_some hkind).1]
    exact hpermits
  | code hentered hpermits | typeExpr hentered hpermits | payload hentered hpermits =>
    rw [(kind?_ofOutcome_eq_some hkind).1]
    exact hpermits
  | quoteMark hpermits hquote =>
    cases hkind
    exact hpermits
  | nothing hentered => cases hkind

end Attempt

end GrammarFragments
