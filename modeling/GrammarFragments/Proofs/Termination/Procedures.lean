import Mathlib.Tactic.SplitIfs
import GrammarFragments.Lexeme.QuotedText
import GrammarFragments.Lexeme.StringLiteral

/-!
Loops and calls, without a promise that they come to an end. A procedure is a loop; a pass of the
loop leaves it with a result, goes on in a new state, or calls the procedure again and goes on when
the call has returned. That a procedure returns a result is a finite derivation (`Returns`), and a
loop that runs for ever has none. The stacks of the calls that are open at some time are those that
`Open` lists.

A procedure with a measure that falls from pass to pass and from a pass to the call that it makes
returns, and it returns the value that its passes keep (`Kept.total`).

The loops over characters have no test for the end of the text where none is needed: at the end the
current character is zero, which no class of characters holds. Each of them lowers the number of
characters that are still to be read, and returns what the function of the same purpose gives.
-/

set_option autoImplicit false
set_option relaxedAutoImplicit false

namespace GrammarFragments

/-! ### Procedures -/

/-- What one pass of a loop does. -/
inductive Pass (σ α : Type)
  /-- The procedure returns. -/
  | leave (result : α)
  /-- The loop goes on. -/
  | again (next : σ)
  /-- The procedure is called from another state. The loop goes on when the call has returned. -/
  | call (inner : σ)

/-- A loop whose passes may call it. -/
structure Procedure (σ α : Type) where
  pass : σ → Pass σ α
  /-- The state in which the loop goes on after a call. -/
  resume : σ → α → σ

namespace Procedure

variable {σ α : Type}

/-- The procedure comes to an end with the result. -/
inductive Returns (procedure : Procedure σ α) : σ → α → Prop
  | leave {state : σ} {result : α} (hpass : procedure.pass state = .leave result) :
    Returns procedure state result
  | again {state next : σ} {result : α} (hpass : procedure.pass state = .again next)
    (hnext : Returns procedure next result) : Returns procedure state result
  | call {state inner : σ} {found result : α} (hpass : procedure.pass state = .call inner)
    (hinner : Returns procedure inner found)
    (hresume : Returns procedure (procedure.resume state found) result) :
    Returns procedure state result

/-- From the start of a pass to the start of the next pass of the same loop. -/
inductive Iterates (procedure : Procedure σ α) : σ → σ → Prop
  | again {state next : σ} (hpass : procedure.pass state = .again next) :
    Iterates procedure state next
  | call {state inner : σ} {found : α} (hpass : procedure.pass state = .call inner)
    (hinner : procedure.Returns inner found) :
    Iterates procedure state (procedure.resume state found)

/-- The states of the loops that are open at the same time, the innermost first, from the time when
the outermost one is in the given state. -/
inductive Open (procedure : Procedure σ α) (outermost : σ) : List σ → Prop
  | outermost : Open procedure outermost [outermost]
  | iterate {state next : σ} {outer : List σ} (hopen : Open procedure outermost (state :: outer))
    (hiterates : procedure.Iterates state next) : Open procedure outermost (next :: outer)
  | call {state inner : σ} {outer : List σ} (hopen : Open procedure outermost (state :: outer))
    (hpass : procedure.pass state = .call inner) :
    Open procedure outermost (inner :: state :: outer)

/-- Each pass lowers the measure, a call starts at a lower one than the pass that makes it, and the
procedure returns the value, from every state. -/
structure Total (procedure : Procedure σ α) (measure : σ → Nat) (value : σ → α) : Prop where
  iterate_lt : ∀ state next, procedure.Iterates state next → measure next < measure state
  call_lt : ∀ state inner, procedure.pass state = .call inner → measure inner < measure state
  returns : ∀ state, procedure.Returns state (value state)

/-- What is to be shown of single passes: the value stays the same, and the measure falls. -/
structure Kept (procedure : Procedure σ α) (measure : σ → Nat) (value : σ → α) : Prop where
  leave_value : ∀ {state : σ} {result : α}, procedure.pass state = .leave result →
    value state = result
  again_lt : ∀ {state next : σ}, procedure.pass state = .again next →
    measure next < measure state
  again_value : ∀ {state next : σ}, procedure.pass state = .again next →
    value state = value next
  call_lt : ∀ {state inner : σ}, procedure.pass state = .call inner →
    measure inner < measure state
  resume_lt : ∀ {state inner : σ}, procedure.pass state = .call inner →
    measure (procedure.resume state (value inner)) < measure state
  resume_value : ∀ {state inner : σ}, procedure.pass state = .call inner →
    value state = value (procedure.resume state (value inner))

namespace Kept

variable {procedure : Procedure σ α} {measure : σ → Nat} {value : σ → α}

/-- A procedure returns nothing but the value. -/
theorem eq_of_returns (hkept : Kept procedure measure value) {state : σ} {result : α}
    (hreturns : procedure.Returns state result) : value state = result := by
  induction hreturns with
  | leave hpass => exact hkept.leave_value hpass
  | again hpass hnext ih => rw [hkept.again_value hpass, ih]
  | call hpass hinner hresume ihinner ihresume =>
    rw [hkept.resume_value hpass, ihinner, ihresume]

theorem returns_value (hkept : Kept procedure measure value) (state : σ) :
    procedure.Returns state (value state) := by
  induction hmeasure : measure state using Nat.strongRecOn generalizing state with
  | ind bound ih =>
    subst hmeasure
    cases hpass : procedure.pass state with
    | leave result =>
      rw [hkept.leave_value hpass]
      exact .leave hpass
    | again next =>
      rw [hkept.again_value hpass]
      exact .again hpass (ih _ (hkept.again_lt hpass) next rfl)
    | call inner =>
      rw [hkept.resume_value hpass]
      exact .call hpass (ih _ (hkept.call_lt hpass) inner rfl)
        (ih _ (hkept.resume_lt hpass) _ rfl)

theorem total (hkept : Kept procedure measure value) : procedure.Total measure value where
  iterate_lt state next hiterates := by
    cases hiterates with
    | again hpass => exact hkept.again_lt hpass
    | call hpass hinner =>
      rw [← hkept.eq_of_returns hinner]
      exact hkept.resume_lt hpass
  call_lt _ _ hpass := hkept.call_lt hpass
  returns := hkept.returns_value

end Kept

/-! ### Loops without calls -/

section Loop

variable {pass : σ → α ⊕ σ} {measure : σ → Nat} {value : σ → α}

/-- The loop whose passes give a result or a new state. -/
def loop (pass : σ → α ⊕ σ) : Procedure σ α where
  pass state := (pass state).elim .leave .again
  resume state _ := state

theorem loop_pass_eq_leave_iff {state : σ} {result : α} :
    (loop pass).pass state = .leave result ↔ pass state = .inl result := by
  simp only [loop]
  cases pass state <;> simp

theorem loop_pass_eq_again_iff {state next : σ} :
    (loop pass).pass state = .again next ↔ pass state = .inr next := by
  simp only [loop]
  cases pass state <;> simp

theorem loop_pass_ne_call {state inner : σ} : (loop pass).pass state ≠ .call inner := by
  simp only [loop]
  cases pass state <;> simp

/-- Assumes: a pass that goes on lowers the measure, and every pass keeps the value. The loop
returns the value. -/
theorem total_loop (hleave : ∀ state result, pass state = .inl result → value state = result)
    (hagain : ∀ state next, pass state = .inr next →
      measure next < measure state ∧ value state = value next) :
    (loop pass).Total measure value := by
  have hkept : (loop pass).Kept measure value :=
    { leave_value := fun hpass ↦ hleave _ _ (loop_pass_eq_leave_iff.mp hpass)
      again_lt := fun hpass ↦ (hagain _ _ (loop_pass_eq_again_iff.mp hpass)).1
      again_value := fun hpass ↦ (hagain _ _ (loop_pass_eq_again_iff.mp hpass)).2
      call_lt := fun hpass ↦ absurd hpass loop_pass_ne_call
      resume_lt := fun hpass ↦ absurd hpass loop_pass_ne_call
      resume_value := fun hpass ↦ absurd hpass loop_pass_ne_call }
  exact hkept.total

end Loop

end Procedure

/-! ### Loops over characters -/

open Reader

/-- The number of characters that are still to be read. -/
def charsLeft {ρ : Type} [Reader ρ] (reader : ρ) : Nat := (rest reader).length

section Characters

variable {ρ : Type} [Reader ρ]

theorem charsLeft_advance_lt {reader : ρ} (hend : atEnd reader = false) :
    charsLeft (advance reader) < charsLeft reader :=
  length_rest_advance_lt hend

/-- A reader that shows a character other than zero is not at the end. -/
theorem atEnd_eq_false_of_current_eq {reader : ρ} {byte : UInt8} (hcurrent : current reader = byte)
    (hbyte : byte ≠ 0) : atEnd reader = false := by
  refine atEnd_eq_false_of_current_ne_zero ?_
  rw [hcurrent]
  exact hbyte

/-- Where the test for the end is made together with one for zero, the zero says nothing new. -/
theorem atEnd_eq_false_of_not_zero {reader : ρ}
    (hzero : ¬ (current reader = 0 ∧ atEnd reader = true)) : atEnd reader = false := by
  refine Bool.eq_false_iff.mpr fun hend ↦ ?_
  exact hzero ⟨current_eq_zero hend, hend⟩

/-- Moves on while the current character is in the class. -/
def movePass {σ : Type} (readerOf : σ → ρ) (move : σ → σ) (accept : UInt8 → Bool) (state : σ) :
    σ ⊕ σ :=
  if accept (current (readerOf state)) then .inr (move state) else .inl state

/-- Assumes: a class of characters without zero, a move that passes one character, and a function
that moves as long as the text has not ended and goes on with a character of the class. The loop
without a test for the end returns what this function gives. -/
theorem total_move {σ : Type} {readerOf : σ → ρ} {move : σ → σ} {accept : UInt8 → Bool}
    {value : σ → σ} (hzero : accept 0 = false)
    (hmove : ∀ state, rest (readerOf (move state)) = (rest (readerOf state)).tail)
    (hvalue : ∀ state, value state =
      if atEnd (readerOf state) then state
      else if accept (current (readerOf state)) then value (move state) else state) :
    (Procedure.loop (movePass readerOf move accept)).Total (fun state ↦ charsLeft (readerOf state))
      value := by
  refine Procedure.total_loop ?_ ?_
  · intro state result hpass
    unfold movePass at hpass
    split_ifs at hpass with haccept
    cases hpass
    rw [hvalue, if_neg haccept, ite_self]
  · intro state next hpass
    unfold movePass at hpass
    split_ifs at hpass with haccept
    cases hpass
    have hend : atEnd (readerOf state) = false :=
      atEnd_eq_false_of_current_ne_zero (ne_of_accept haccept hzero)
    constructor
    · rw [charsLeft, charsLeft, hmove, rest_eq_cons hend]
      exact Nat.lt_succ_self _
    · rw [hvalue, if_neg (Bool.eq_false_iff.mp hend), if_pos haccept]

end Characters

namespace Procedure

section Reader

variable {ρ : Type} [Reader ρ]

/-- Skips blanks. -/
def blanks : Procedure ρ ρ := loop (movePass id skip isBlank)

theorem blanks_total : (blanks : Procedure ρ ρ).Total charsLeft (skipWhile isBlank) :=
  total_move rfl rest_skip fun reader ↦ by rw [skipWhile]; rfl

/-- Passes the rest of a word. -/
def words : Procedure ρ ρ := loop (movePass id advance isWordPart)

theorem words_total : (words : Procedure ρ ρ).Total charsLeft (advanceWhile isWordPart) :=
  total_move rfl rest_advance fun reader ↦ by rw [advanceWhile]; rfl

/-- Passes the tag of a quoted text and adds it to what was taken before, the latest first. -/
def tags : Procedure (List UInt8 × ρ) (List UInt8 × ρ) :=
  loop (movePass Prod.snd
    (fun state ↦ (current state.2 :: state.1, advance state.2)) isTagByte)

theorem tags_total : (tags : Procedure (List UInt8 × ρ) (List UInt8 × ρ)).Total
    (fun state ↦ charsLeft state.2) (fun state ↦ collectWhile isTagByte state.2 state.1) :=
  total_move rfl (fun state ↦ rest_advance state.2) fun state ↦ by rw [collectWhile]

/-- The bytes of which tags are made. -/
abbrev TagByte := { byte : UInt8 // isTagByte byte = true }

/-- Compares the current character with the next one of the closer of a quoted text: what is left of
the tag, and then a brace. -/
def candidatePass : List TagByte × ρ → (Bool × ρ) ⊕ (List TagByte × ρ)
  | ([], reader) =>
    if current reader = Ascii.braceClose then .inl (true, advance reader)
    else .inl (false, reader)
  | (expected :: tag, reader) =>
    if current reader = expected.val then .inr (tag, advance reader) else .inl (false, reader)

/-- Passes a candidate for the closer of a quoted text, up to the first character that differs. -/
def candidates : Procedure (List TagByte × ρ) (Bool × ρ) := loop candidatePass

theorem candidates_total : (candidates : Procedure (List TagByte × ρ) (Bool × ρ)).Total
    (fun state ↦ charsLeft state.2)
    (fun state ↦ QuotedText.matchCloser (state.1.map Subtype.val) state.2) := by
  refine total_loop ?_ ?_
  · rintro ⟨_ | ⟨expected, tag⟩, reader⟩ result hpass
    · rw [candidatePass] at hpass
      split_ifs at hpass with hbrace
      · cases hpass
        rw [List.map_nil, QuotedText.matchCloser, if_pos hbrace]
      · cases hpass
        rw [List.map_nil, QuotedText.matchCloser, if_neg hbrace]
    · rw [candidatePass] at hpass
      split_ifs at hpass with hexpected
      cases hpass
      rw [List.map_cons, QuotedText.matchCloser, if_neg hexpected]
  · rintro ⟨_ | ⟨expected, tag⟩, reader⟩ next hpass
    · rw [candidatePass] at hpass
      split_ifs at hpass
    · rw [candidatePass] at hpass
      split_ifs at hpass with hexpected
      cases hpass
      have hend := atEnd_eq_false_of_current_eq hexpected (ne_of_accept expected.property rfl)
      constructor
      · exact charsLeft_advance_lt hend
      · rw [List.map_cons, QuotedText.matchCloser, if_pos hexpected]

/-- Goes on to the next bar and looks for the closer behind it. -/
def closerPass (tag : List UInt8) (reader : ρ) : (Bool × ρ) ⊕ ρ :=
  if current reader = Ascii.bar then
    let candidate := QuotedText.matchCloser tag (advance reader)
    if candidate.1 then .inl candidate else .inr candidate.2
  else if current reader = 0 ∧ atEnd reader = true then .inl (false, reader)
  else .inr (advance reader)

/-- Passes the body of a quoted text and its closer. -/
def closers (tag : List UInt8) : Procedure ρ (Bool × ρ) := loop (closerPass tag)

theorem closers_total (tag : List UInt8) :
    (closers tag : Procedure ρ (Bool × ρ)).Total charsLeft (QuotedText.findCloser tag) := by
  refine total_loop ?_ ?_
  · intro reader result hpass
    simp only [closerPass] at hpass
    split_ifs at hpass with hbar hclosed hzero
    · cases hpass
      have hend := atEnd_eq_false_of_current_eq hbar (by decide)
      rw [QuotedText.findCloser, if_neg (Bool.eq_false_iff.mp hend), if_pos hbar]
      exact if_pos hclosed
    · cases hpass
      rw [QuotedText.findCloser, if_pos hzero.2]
  · intro reader next hpass
    simp only [closerPass] at hpass
    split_ifs at hpass with hbar hclosed hzero
    · cases hpass
      have hend := atEnd_eq_false_of_current_eq hbar (by decide)
      constructor
      · exact Nat.lt_of_le_of_lt (QuotedText.rest_matchCloser_suffix tag _).length_le
          (charsLeft_advance_lt hend)
      · rw [QuotedText.findCloser, if_neg (Bool.eq_false_iff.mp hend), if_pos hbar]
        exact if_neg hclosed
    · cases hpass
      have hend := atEnd_eq_false_of_not_zero hzero
      constructor
      · exact charsLeft_advance_lt hend
      · rw [QuotedText.findCloser, if_neg (Bool.eq_false_iff.mp hend), if_neg hbar]

/-- Goes on to the next double quote or backslash. -/
def contentPass (reader : ρ) : ρ ⊕ ρ :=
  if isStringStop (current reader) then .inl reader
  else if current reader = 0 ∧ atEnd reader = true then .inl reader
  else .inr (advance reader)

/-- Passes the content of a string literal up to the next double quote or backslash. -/
def contents : Procedure ρ ρ := loop contentPass

theorem contents_total : (contents : Procedure ρ ρ).Total charsLeft seekStepwise := by
  refine total_loop ?_ ?_
  · intro reader result hpass
    unfold contentPass at hpass
    split_ifs at hpass with hstop hzero
    · cases hpass
      have hrefused : ¬ (!isStringStop (current reader)) = true := by
        rw [hstop]
        exact Bool.false_ne_true
      rw [seekStepwise, advanceWhile, if_neg hrefused, ite_self]
    · cases hpass
      rw [seekStepwise, advanceWhile, if_pos hzero.2]
  · intro reader next hpass
    unfold contentPass at hpass
    split_ifs at hpass with hstop hzero
    cases hpass
    have hend := atEnd_eq_false_of_not_zero hzero
    have haccept : (!isStringStop (current reader)) = true := by
      rw [Bool.eq_false_iff.mpr hstop]
      rfl
    constructor
    · exact charsLeft_advance_lt hend
    · rw [seekStepwise, seekStepwise, advanceWhile, if_neg (Bool.eq_false_iff.mp hend),
        if_pos haccept]

end Reader

section SeekReader

variable {ρ : Type} [SeekReader ρ]

open SeekReader

/-- Goes to the next double quote or backslash and passes it, a backslash together with the
character after it. -/
def stringPass (reader : ρ) : ρ ⊕ ρ :=
  let stop := seek reader
  if current stop = Ascii.backslash then .inr (advance (advance stop))
  else if current stop = Ascii.doubleQuote then .inl (advance stop)
  else .inl stop

/-- Passes the rest of a string literal. -/
def strings : Procedure ρ ρ := loop stringPass

theorem strings_total : (strings : Procedure ρ ρ).Total charsLeft StringLiteral.finish := by
  refine total_loop ?_ ?_
  · intro reader result hpass
    simp only [stringPass] at hpass
    split_ifs at hpass with hescape hquote
    · cases hpass
      have hend := atEnd_eq_false_of_current_eq hquote (by decide)
      rw [StringLiteral.finish]
      simp only [if_neg (Bool.eq_false_iff.mp hend), if_neg hescape, if_pos hquote]
    · cases hpass
      rw [StringLiteral.finish]
      simp only [if_neg hescape, if_neg hquote, ite_self]
  · intro reader next hpass
    simp only [stringPass] at hpass
    split_ifs at hpass with hescape hquote
    cases hpass
    have hend := atEnd_eq_false_of_current_eq hescape (by decide)
    constructor
    · calc
        charsLeft (advance (advance (seek reader)))
            ≤ charsLeft (advance (seek reader)) := (rest_advance_suffix _).length_le
        _ < charsLeft (seek reader) := charsLeft_advance_lt hend
        _ ≤ charsLeft reader := (StringLiteral.rest_seek_suffix reader).length_le
    · rw [StringLiteral.finish]
      simp only [if_neg (Bool.eq_false_iff.mp hend), if_pos hescape]

end SeekReader

end Procedure

end GrammarFragments
