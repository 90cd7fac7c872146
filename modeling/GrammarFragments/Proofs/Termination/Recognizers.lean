import GrammarFragments.Proofs.Nesting.Frames
import GrammarFragments.Proofs.Simulation.Remaining
import GrammarFragments.Proofs.Snapshots.Interruption
import GrammarFragments.Proofs.Termination.Procedures

/-!
The recognizers come to an end. Groups are followed here by a procedure that calls itself for every
group inside of a group, as in `Activation.pass`; the machine with its list of groups is nowhere
assumed to be this recursion, but proved to be (`step_alone`, `run_alone_of_call`).

The measure of an activation is twice the number of characters still to be read, and one more for a
character handed back: a pass that takes such a character does not move the reader, and one that
hands it back has moved it by two. It falls from pass to pass, and from a pass to the call that it
makes (`groups_kept`). The procedures for types and scans pass more than one character at a time
with the help of the others, so the characters still to be read are their measure.

Every call has taken a character of its own, its opener, so no more calls can be open inside of the
outermost one than characters have been taken (`length_outer_add_le`). Main statement:
`recognizers_return`.
-/

set_option autoImplicit false
set_option relaxedAutoImplicit false

namespace GrammarFragments

open Reader

/-! ### Steps of the machine -/

/-- A turn leaves no more than it was given, a character that it hands back included. -/
theorem Enclosure.length_pending_add_rest_turn_le {ρ : Type} [SeekReader ρ] (group : Enclosure)
    (byte : UInt8) (reader : ρ) (context : Context) :
    (group.turn byte reader context).pending.toList.length +
      (rest (group.turn byte reader context).reader).length ≤ (rest reader).length := by
  cases hpending : (group.turn byte reader context).pending with
  | none =>
    rw [Option.toList_none, List.length_nil, Nat.zero_add]
    exact (group.rest_turn_suffix byte reader context).length_le
  | some handed =>
    have hhanded : (group.turn byte reader context).pending.isSome = true := by
      rw [hpending, Option.isSome_some]
    rw [Option.toList_some, List.length_singleton, Nat.add_comm]
    exact length_rest_turn_lt hhanded

namespace Nesting

variable {ρ : Type} [SeekReader ρ]

/-- Whether or not a group was found complete, the one around it goes on where it ended. -/
theorem resume_singleton (group : Enclosure) {outcome : Outcome ρ}
    (hfailed : outcome.matched = false → rest outcome.reader = []) :
    resume [group] outcome = (enter group [] outcome.reader outcome.context).run := by
  rw [resume]
  split_ifs with hmatched
  · rfl
  · have hunmatched : outcome.matched = false := Bool.eq_false_iff.mpr hmatched
    have hend : atEnd (group.mark outcome.reader) = true := by
      refine atEnd_of_rest_eq_nil ?_
      rw [Enclosure.rest_mark]
      exact hfailed hunmatched
    have hnext : (enter group [] outcome.reader outcome.context).next? = none := by
      simp only [next?, enter, hend, if_true]
    rw [run_of_step_eq_done (step_of_next?_eq_none hnext), hunmatched]
    rfl

/-- Every step that goes on takes one of the characters that are left. -/
theorem length_remaining_lt_of_step_eq_more {nesting after : Nesting ρ}
    (hstep : nesting.step = .more after) :
    after.remaining.length < nesting.remaining.length := by
  cases hnext : nesting.next? with
  | none =>
    rw [step_of_next?_eq_none hnext] at hstep
    cases hstep
  | some byte =>
    rw [remaining_eq_cons hnext, List.length_cons]
    have hsuffix := (nesting.group.rest_turn_suffix byte nesting.takeNext nesting.context).length_le
    refine Nat.lt_succ_of_le ?_
    cases hturn : nesting.group.turn byte nesting.takeNext nesting.context with
    | close reader context =>
      rw [step_of_turn_eq_close hnext hturn] at hstep
      rw [hturn] at hsuffix
      cases houter : nesting.outer with
      | nil =>
        rw [houter] at hstep
        cases hstep
      | cons group outer =>
        rw [houter] at hstep
        cases hstep
        rw [remaining_enter]
        exact hsuffix
    | nest inner reader context =>
      rw [step_of_turn_eq_nest hnext hturn] at hstep
      rw [hturn] at hsuffix
      cases hstep
      rw [remaining_enter]
      exact hsuffix
    | hold reader context =>
      rw [step_of_turn_eq_hold hnext hturn] at hstep
      rw [hturn] at hsuffix
      cases hstep
      exact hsuffix
    | unit pending reader context =>
      rw [step_of_turn_eq_unit hnext hturn] at hstep
      have hbound := nesting.group.length_pending_add_rest_turn_le byte nesting.takeNext
        nesting.context
      rw [hturn] at hbound
      cases hstep
      rw [remaining, rest_afterUnit, List.length_append]
      exact hbound

end Nesting

/-! ### Groups by recursion -/

/-- One activation of the loop that follows a group, at the start of a pass. -/
structure Activation (ρ : Type) where
  group : Enclosure
  /-- A character that was passed and handed back: it comes before the current one. -/
  pending : Option UInt8
  reader : ρ
  context : Context

namespace Activation

variable {ρ : Type} [SeekReader ρ]

/-- The activation for a group that has just been opened, or that goes on after a call. -/
def begun (group : Enclosure) (reader : ρ) (context : Context) : Activation ρ :=
  ⟨group, none, group.mark reader, context⟩

/-- The configuration of the machine in which nothing but the group of the activation is open. -/
def alone (activation : Activation ρ) : Nesting ρ :=
  ⟨activation.group, [], activation.pending, activation.reader, activation.context⟩

/-- Twice the number of characters still to be read, and one more for a character handed back. -/
def weight (activation : Activation ρ) : Nat :=
  2 * charsLeft activation.reader + if activation.pending.isSome then 1 else 0

/-- Takes one character. What follows is what its turn says, and a group that it opens is followed
by a call. -/
def pass (activation : Activation ρ) : Pass (Activation ρ) (Outcome ρ) :=
  match activation.alone.next? with
  | none => .leave ⟨false, activation.reader, activation.context⟩
  | some byte =>
    match activation.group.turn byte activation.alone.takeNext activation.context with
    | .close reader context => .leave ⟨true, reader, context⟩
    | .nest inner reader context => .call (begun inner reader context)
    | .hold reader context => .again { activation with pending := none, reader, context }
    | .unit pending reader context =>
      .again { activation with
        pending, reader := Nesting.afterUnit activation.group pending reader, context }

/-- The loop goes on after a call, whether or not the call has found the end of its group. -/
def resume (activation : Activation ρ) (found : Outcome ρ) : Activation ρ :=
  begun activation.group found.reader found.context

/-- The step of the machine that a pass amounts to. -/
def progress (group : Enclosure) : Pass (Activation ρ) (Outcome ρ) → Nesting.Progress ρ
  | .leave outcome => .done outcome
  | .again next => .more next.alone
  | .call inner => .more (inner.alone.within [group])

/-- A pass of the recursion is a step of the machine. -/
theorem step_alone (activation : Activation ρ) :
    activation.alone.step = progress activation.group activation.pass := by
  cases hnext : activation.alone.next? with
  | none =>
    rw [Nesting.step_of_next?_eq_none hnext]
    simp only [pass, hnext]
    rfl
  | some byte =>
    cases hturn : activation.group.turn byte activation.alone.takeNext activation.context with
    | close reader context =>
      rw [Nesting.step_of_turn_eq_close hnext hturn]
      simp only [pass, hnext, hturn]
      rfl
    | nest inner reader context =>
      rw [Nesting.step_of_turn_eq_nest hnext hturn]
      simp only [pass, hnext, hturn]
      rfl
    | hold reader context =>
      rw [Nesting.step_of_turn_eq_hold hnext hturn]
      simp only [pass, hnext, hturn]
      rfl
    | unit pending reader context =>
      rw [Nesting.step_of_turn_eq_unit hnext hturn]
      simp only [pass, hnext, hturn]
      rfl

section Passes

variable {activation next inner : Activation ρ} {outcome : Outcome ρ}

theorem step_of_leave (hpass : activation.pass = .leave outcome) :
    activation.alone.step = .done outcome := by
  rw [step_alone, hpass, progress]

theorem step_of_again (hpass : activation.pass = .again next) :
    activation.alone.step = .more next.alone := by
  rw [step_alone, hpass, progress]

theorem step_of_call (hpass : activation.pass = .call inner) :
    activation.alone.step = .more (inner.alone.within [activation.group]) := by
  rw [step_alone, hpass, progress]

/-- The machine goes on after a group as the recursion goes on after a call. -/
theorem run_alone_of_call (hpass : activation.pass = .call inner) :
    activation.alone.run = (activation.resume inner.alone.run).alone.run := by
  rw [Nesting.run_of_step_eq_more (step_of_call hpass), Nesting.run_within,
    Nesting.resume_singleton _ Nesting.rest_run_eq_nil]
  rfl

/-- After a call no more is left to be read than at its start. -/
theorem rest_resume_suffix (activation inner : Activation ρ) :
    rest (activation.resume inner.alone.run).reader <:+ rest inner.reader := by
  rw [resume, begun, Enclosure.rest_mark]
  exact Nesting.rest_run_suffix inner.alone

/-- A character handed back is still to be taken. -/
theorem charsLeft_le (activation : Activation ρ) :
    charsLeft activation.reader ≤ activation.alone.remaining.length := by
  rw [Nesting.remaining, List.length_append]
  exact Nat.le_add_left _ _

/-- A call has taken a character of its own, the first one of its opener. -/
theorem length_remaining_lt_of_call (hpass : activation.pass = .call inner) :
    inner.alone.remaining.length < activation.alone.remaining.length := by
  have hlt : (inner.alone.within [activation.group]).remaining.length <
      activation.alone.remaining.length :=
    Nesting.length_remaining_lt_of_step_eq_more (step_of_call hpass)
  exact hlt

theorem weight_resume_le (activation inner : Activation ρ) :
    (activation.resume inner.alone.run).weight ≤ inner.weight := by
  have hsuffix := (rest_resume_suffix activation inner).length_le
  calc
    (activation.resume inner.alone.run).weight
        = 2 * charsLeft (activation.resume inner.alone.run).reader := rfl
    _ ≤ 2 * charsLeft inner.reader := Nat.mul_le_mul_left 2 hsuffix
    _ ≤ inner.weight := Nat.le_add_right _ _

end Passes

end Activation

namespace Procedure

variable {ρ : Type} [SeekReader ρ]

/-- Follows a group to its end, with a call for every group inside of it. -/
def groups : Procedure (Activation ρ) (Outcome ρ) where
  pass := Activation.pass
  resume := Activation.resume

/-- Each pass lowers the weight of the activation, a call starts at a lower one, and the outcome is
that of the machine. -/
theorem groups_kept : (groups : Procedure (Activation ρ) (Outcome ρ)).Kept Activation.weight
    (fun activation ↦ activation.alone.run) where
  leave_value hpass := Nesting.run_of_step_eq_done (Activation.step_of_leave hpass)
  again_lt hpass := Nesting.weight_lt_of_step_eq_more (Activation.step_of_again hpass)
  again_value hpass := Nesting.run_of_step_eq_more (Activation.step_of_again hpass)
  call_lt hpass := Nesting.weight_lt_of_step_eq_more (Activation.step_of_call hpass)
  resume_lt hpass := Nat.lt_of_le_of_lt (Activation.weight_resume_le _ _)
    (Nesting.weight_lt_of_step_eq_more (Activation.step_of_call hpass))
  resume_value hpass := Activation.run_alone_of_call hpass

/-! ### Calls that are open at the same time -/

/-- From pass to pass of one loop fewer characters are left to be taken. -/
theorem length_remaining_lt_of_iterates {activation next : Activation ρ}
    (hiterates : groups.Iterates activation next) :
    next.alone.remaining.length < activation.alone.remaining.length := by
  cases hiterates with
  | again hpass =>
    exact Nesting.length_remaining_lt_of_step_eq_more (Activation.step_of_again hpass)
  | @call inner found hpass hinner =>
    obtain rfl := groups_kept.eq_of_returns hinner
    calc
      (activation.resume inner.alone.run).alone.remaining.length
          = charsLeft (activation.resume inner.alone.run).reader := rfl
      _ ≤ charsLeft inner.reader := (Activation.rest_resume_suffix activation inner).length_le
      _ ≤ inner.alone.remaining.length := inner.charsLeft_le
      _ < activation.alone.remaining.length := Activation.length_remaining_lt_of_call hpass

/-- The calls that are open inside of the outermost one, with the characters that are left to be
taken, are no more than the characters that were left when it began. -/
theorem length_outer_add_le {outermost top : Activation ρ} {outer : List (Activation ρ)}
    (hopen : groups.Open outermost (top :: outer)) :
    outer.length + top.alone.remaining.length ≤ outermost.alone.remaining.length := by
  generalize hstack : top :: outer = stack at hopen
  induction hopen generalizing top outer with
  | outermost =>
    cases hstack
    exact (Nat.zero_add _).le
  | iterate hopen hiterates ih =>
    cases hstack
    have hbound := ih rfl
    have hlt := length_remaining_lt_of_iterates hiterates
    omega
  | @call state inner outer hopen hpass ih =>
    cases hstack
    have hbound := ih rfl
    have hlt := Activation.length_remaining_lt_of_call hpass
    rw [List.length_cons]
    omega

/-! ### Types and scans -/

/-- Ends in front of a `>`, or else passes one unit of the type. -/
def typePass (state : ρ × Context) : Outcome ρ ⊕ (ρ × Context) :=
  if current state.1 = Ascii.greater then .inl ⟨true, commit state.1, state.2⟩
  else if current state.1 = 0 ∧ atEnd state.1 = true then .inl ⟨false, state.1, state.2⟩
  else .inr (passTypeUnit state.1 state.2)

/-- Passes a type. -/
def types : Procedure (ρ × Context) (Outcome ρ) := loop typePass

theorem types_total : (types : Procedure (ρ × Context) (Outcome ρ)).Total
    (fun state ↦ charsLeft state.1) (fun state ↦ readType state.1 state.2) := by
  refine total_loop ?_ ?_
  · rintro ⟨reader, context⟩ result hpass
    simp only [typePass] at hpass
    split_ifs at hpass with hgreater hzero
    · cases hpass
      have hend := atEnd_eq_false_of_current_eq hgreater (by decide)
      rw [readType, if_neg (Bool.eq_false_iff.mp hend), if_pos hgreater]
    · cases hpass
      rw [readType, if_pos hzero.2]
  · rintro ⟨reader, context⟩ next hpass
    simp only [typePass] at hpass
    split_ifs at hpass with hgreater hzero
    cases hpass
    have hend := atEnd_eq_false_of_not_zero hzero
    constructor
    · exact length_rest_passTypeUnit_lt context hend
    · rw [readType, if_neg (Bool.eq_false_iff.mp hend), if_neg hgreater]

/-- Skips a blank, or else tries the first recognizer that applies. -/
def scanPass (requested : Request) (context : Context) (reader : ρ) : Scan ρ ⊕ ρ :=
  if isBlank (current reader) then .inr (skip reader)
  else
    let attempt := Attempt.start requested reader context
    .inl ⟨attempt.kind?, attempt.event requested, attempt.reader, attempt.context⟩

/-- Looks for a fragment of one of the permitted kinds. -/
def scans (requested : Request) (context : Context) : Procedure ρ (Scan ρ) :=
  loop (scanPass requested context)

theorem scans_total (requested : Request) (context : Context) :
    (scans requested context : Procedure ρ (Scan ρ)).Total charsLeft
      (fun reader ↦ scan requested reader context) := by
  refine total_loop ?_ ?_
  · intro reader result hpass
    simp only [scanPass] at hpass
    split_ifs at hpass with hblank
    cases hpass
    rw [scan, skipWhile_of_refused (Bool.eq_false_iff.mpr hblank)]
  · intro reader next hpass
    simp only [scanPass] at hpass
    split_ifs at hpass with hblank
    cases hpass
    have hend : atEnd reader = false :=
      atEnd_eq_false_of_current_ne_zero (ne_of_accept hblank rfl)
    constructor
    · rw [charsLeft, charsLeft, rest_skip, rest_eq_cons hend]
      exact Nat.lt_succ_self _
    · rw [scan, skipWhile, if_neg (Bool.eq_false_iff.mp hend), if_pos hblank, ← scan]

end Procedure

/-! ### All recognizers -/

/-- What an opening remembers is made of the bytes of which tags are made, so zero is not among
the characters that a candidate for the closer is compared with. -/
theorem QuotedText.exists_tag_of_matched {ρ : Type} [Reader ρ] {reader : ρ} {context : Context}
    (hopened : (readOpening reader context).matched = true) :
    ∃ tag : List Procedure.TagByte,
      (readOpening reader context).context.tag = tag.map Subtype.val := by
  have hwell : ∀ byte ∈ (readOpening reader context).context.tag, isTagByte byte = true :=
    readOpening_wellTagged hopened
  refine ⟨List.attachWith _ _ hwell, ?_⟩
  rw [List.attachWith_map_subtype_val]

/-- The recognizers return, over every reader and in every context.

The loops over blanks, words, tags, the content of strings, strings and the closers of quoted texts,
and the loop that compares a candidate for a closer, read fewer characters from pass to pass and
return. A reader that passes the content of a string in bulk reaches what the loop reaches. The
characters to compare with are always those of a tag.

Each pass for a comment, a code block or a bracket group lowers twice the number of characters still
to be read, with one added for a character handed back; each call inside of it starts at a lower
weight; and the call returns. So the recognizers of comments, code, types and payloads return, and
so does a scan for whatever is requested.

The calls that are open inside of the outermost one are no more than the characters that were
passed since it began. -/
theorem recognizers_return {ρ : Type} [SeekReader ρ] :
    ((Procedure.blanks : Procedure ρ ρ).Total charsLeft (skipWhile isBlank) ∧
      (Procedure.words : Procedure ρ ρ).Total charsLeft (advanceWhile isWordPart) ∧
      (Procedure.tags : Procedure (List UInt8 × ρ) _).Total (fun state ↦ charsLeft state.2)
        (fun state ↦ collectWhile isTagByte state.2 state.1) ∧
      (Procedure.contents : Procedure ρ ρ).Total charsLeft seekStepwise ∧
      (∀ reader : ρ, rest (SeekReader.seek reader) = rest (seekStepwise reader)) ∧
      (Procedure.strings : Procedure ρ ρ).Total charsLeft StringLiteral.finish ∧
      (∀ tag, (Procedure.closers tag : Procedure ρ (Bool × ρ)).Total charsLeft
        (QuotedText.findCloser tag)) ∧
      (Procedure.candidates : Procedure (List Procedure.TagByte × ρ) _).Total
        (fun state ↦ charsLeft state.2)
        (fun state ↦ QuotedText.matchCloser (state.1.map Subtype.val) state.2) ∧
      ∀ (reader : ρ) (context : Context), (QuotedText.readOpening reader context).matched = true →
        ∃ tag : List Procedure.TagByte,
          (QuotedText.readOpening reader context).context.tag = tag.map Subtype.val) ∧
    (Procedure.groups : Procedure (Activation ρ) (Outcome ρ)).Total Activation.weight
      (fun activation ↦ activation.alone.run) ∧
    (∀ (reader : ρ) (context : Context),
      (if current reader = Ascii.star then
        Procedure.groups.Returns (.begun .comment (advance reader) context)
          (readComment reader context)
      else readComment reader context = ⟨false, reader, context⟩) ∧
      Procedure.groups.Returns (.begun .code reader context) (readCode reader context) ∧
      Procedure.types.Returns (reader, context) (readType reader context) ∧
      Procedure.groups.Returns (.begun .bracket reader context) (readPayload reader context) ∧
      ∀ requested, (Procedure.scans requested context).Returns reader
        (scan requested reader context)) ∧
    ∀ (group : Enclosure) (reader : ρ) (context : Context) (top : Activation ρ)
      (outer : List (Activation ρ)),
      Procedure.groups.Open (.begun group reader context) (top :: outer) →
      outer.length + charsLeft top.reader ≤ charsLeft reader := by
  refine ⟨⟨Procedure.blanks_total, Procedure.words_total, Procedure.tags_total,
    Procedure.contents_total, SeekReader.rest_seek_eq, Procedure.strings_total,
    Procedure.closers_total, Procedure.candidates_total,
    fun reader context ↦ QuotedText.exists_tag_of_matched⟩,
    Procedure.groups_kept.total, ?_, ?_⟩
  · intro reader context
    have hgroup : ∀ (group : Enclosure) (reader : ρ), Procedure.groups.Returns
        (.begun group reader context) (Nesting.enter group [] reader context).run :=
      fun group reader ↦ Procedure.groups_kept.returns_value (.begun group reader context)
    refine ⟨?_, hgroup .code reader, Procedure.types_total.returns (reader, context),
      hgroup .bracket reader,
      fun requested ↦ (Procedure.scans_total requested context).returns reader⟩
    split_ifs with hstar
    · rw [readComment, if_pos hstar]
      exact hgroup .comment (advance reader)
    · rw [readComment, if_neg hstar]
  · intro group reader context top outer hopen
    have hbound := Procedure.length_outer_add_le hopen
    have hbegun : (Activation.begun group reader context).alone.remaining = rest reader :=
      Nesting.remaining_enter group [] reader context
    calc
      outer.length + charsLeft top.reader ≤ outer.length + top.alone.remaining.length :=
        Nat.add_le_add_left top.charsLeft_le _
      _ ≤ (Activation.begun group reader context).alone.remaining.length := hbound
      _ = charsLeft reader := by rw [hbegun, charsLeft]

/-- Inside of two square brackets the two calls for them are open, as many as characters were
passed. -/
theorem recognizers_return_witness :
    let begun (chars : List UInt8) : Activation (List UInt8) :=
      .begun .bracket chars Context.initial
    let outermost := begun [Ascii.bracketOpen, Ascii.bracketOpen]
    let outer := [begun [Ascii.bracketOpen], outermost]
    Procedure.groups.Open outermost (begun [] :: outer) ∧
      outer.length + charsLeft (begun []).reader ≤ charsLeft outermost.reader ∧
      outer.length = 2 ∧ charsLeft outermost.reader = 2 := by
  intro begun outermost outer
  have hfirst : Procedure.groups.Open outermost [outermost] := .outermost
  have hsecond : Procedure.groups.Open outermost outer := .call hfirst rfl
  have hthird : Procedure.groups.Open outermost (begun [] :: outer) := .call hsecond rfl
  exact ⟨hthird, recognizers_return.2.2.2 _ _ _ _ _ hthird, rfl, rfl⟩

end GrammarFragments
