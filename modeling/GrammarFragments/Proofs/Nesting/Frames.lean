import GrammarFragments.Fragment.Recognizers

/-!
The groups around a group take no part in its run. A run inside of more groups is the run without
them, after which the groups around go on from where it ended: the nearest of them after a complete
unit if the run found its end, and none of them otherwise, because then the text has been read to
its end (`run_within`, `rest_run_eq_nil`). This is the view of the machine as a recursion, in which
every group is followed by a call of its own.
-/

set_option autoImplicit false
set_option relaxedAutoImplicit false

namespace GrammarFragments

open Reader

namespace Nesting

variable {ρ : Type} [SeekReader ρ]

/-! ### Steps, by what the next character makes of the group -/

section Steps

variable {nesting : Nesting ρ} {byte : UInt8} {reader : ρ} {context : Context}

theorem step_of_next?_eq_none (hnext : nesting.next? = none) :
    nesting.step = .done nesting.abandon := by
  simp only [step, hnext]

theorem step_of_turn_eq_close (hnext : nesting.next? = some byte)
    (hturn : nesting.group.turn byte nesting.takeNext nesting.context = .close reader context) :
    nesting.step = leave nesting.outer reader context := by
  simp only [step, hnext, hturn]

theorem step_of_turn_eq_nest {inner : Enclosure} (hnext : nesting.next? = some byte)
    (hturn : nesting.group.turn byte nesting.takeNext nesting.context =
      .nest inner reader context) :
    nesting.step = .more (enter inner (nesting.group :: nesting.outer) reader context) := by
  simp only [step, hnext, hturn]

theorem step_of_turn_eq_hold (hnext : nesting.next? = some byte)
    (hturn : nesting.group.turn byte nesting.takeNext nesting.context = .hold reader context) :
    nesting.step = .more { nesting with pending := none, reader, context } := by
  simp only [step, hnext, hturn]

/-- The reader after a complete unit. It is not committed behind the closer of its group. -/
def afterUnit (group : Enclosure) (pending : Option UInt8) (reader : ρ) : ρ :=
  if pending = some group.closer then reader else group.mark reader

theorem rest_afterUnit (group : Enclosure) (pending : Option UInt8) (reader : ρ) :
    rest (afterUnit group pending reader) = rest reader := by
  rw [afterUnit]
  split
  · rfl
  · exact Enclosure.rest_mark group reader

theorem step_of_turn_eq_unit {pending : Option UInt8} (hnext : nesting.next? = some byte)
    (hturn : nesting.group.turn byte nesting.takeNext nesting.context =
      .unit pending reader context) :
    nesting.step = .more { nesting with
      pending, reader := afterUnit nesting.group pending reader, context } := by
  simp only [step, hnext, hturn, afterUnit]
  split <;> rfl

/-- A run finishes at the end of the text, or when its outermost group closes. -/
theorem step_eq_done_cases {outcome : Outcome ρ} (hstep : nesting.step = .done outcome) :
    (nesting.next? = none ∧ outcome = nesting.abandon) ∨
      ∃ byte reader context, nesting.next? = some byte ∧
        nesting.group.turn byte nesting.takeNext nesting.context = .close reader context ∧
        nesting.outer = [] ∧ outcome = ⟨true, reader, context⟩ := by
  cases hnext : nesting.next? with
  | none =>
    rw [step_of_next?_eq_none hnext] at hstep
    cases hstep
    exact .inl ⟨rfl, rfl⟩
  | some byte =>
    cases hturn : nesting.group.turn byte nesting.takeNext nesting.context with
    | close reader context =>
      rw [step_of_turn_eq_close hnext hturn] at hstep
      cases houter : nesting.outer with
      | nil =>
        rw [houter] at hstep
        cases hstep
        exact .inr ⟨byte, reader, context, rfl, hturn, rfl, rfl⟩
      | cons group outer =>
        rw [houter] at hstep
        cases hstep
    | nest inner reader context =>
      rw [step_of_turn_eq_nest hnext hturn] at hstep
      cases hstep
    | hold reader context =>
      rw [step_of_turn_eq_hold hnext hturn] at hstep
      cases hstep
    | unit pending reader context =>
      rw [step_of_turn_eq_unit hnext hturn] at hstep
      cases hstep

end Steps

/-! ### The characters still to be taken -/

section Remaining

variable {nesting : Nesting ρ}

/-- The characters still to be taken: one that was handed back comes before those still to be
read. -/
def remaining (nesting : Nesting ρ) : List UInt8 := nesting.pending.toList ++ rest nesting.reader

theorem remaining_eq_nil (hnext : nesting.next? = none) : nesting.remaining = [] := by
  rw [remaining]
  cases hpending : nesting.pending with
  | some byte => simp [next?, hpending] at hnext
  | none =>
    have hend : atEnd nesting.reader = true := by
      simpa [next?, hpending] using hnext
    rw [rest_eq_nil hend]
    rfl

theorem remaining_eq_cons {byte : UInt8} (hnext : nesting.next? = some byte) :
    nesting.remaining = byte :: rest nesting.takeNext := by
  rw [remaining, takeNext]
  cases hpending : nesting.pending with
  | some pending =>
    have hbyte : pending = byte := by
      simpa [next?, hpending] using hnext
    rw [hbyte]
    rfl
  | none =>
    simp only [next?, hpending, Option.ite_none_left_eq_some, Option.some.injEq] at hnext
    rw [rest_advance, ← hnext.2]
    exact rest_eq_cons (by simpa using hnext.1)

theorem remaining_enter (group : Enclosure) (outer : List Enclosure) (reader : ρ)
    (context : Context) : (enter group outer reader context).remaining = rest reader :=
  Enclosure.rest_mark group reader

theorem weight_enter (group : Enclosure) (outer : List Enclosure) (reader : ρ)
    (context : Context) : (enter group outer reader context).weight = 2 * (rest reader).length := by
  rw [weight_of_pending_eq_none rfl, enter, Enclosure.rest_mark]

end Remaining

/-! ### Groups around a run -/

/-- The same configuration with more groups around it. -/
def within (nesting : Nesting ρ) (outer : List Enclosure) : Nesting ρ :=
  { nesting with outer := nesting.outer ++ outer }

/-- What becomes of the groups around a run with the given outcome. -/
def resume (outer : List Enclosure) (outcome : Outcome ρ) : Outcome ρ :=
  if outcome.matched then
    match outer with
    | [] => outcome
    | group :: outer => (enter group outer outcome.reader outcome.context).run
  else { outcome with reader := outer.foldl (fun reader group ↦ group.mark reader) outcome.reader }

/-- A closed group with more groups around it hands over to the nearest of them. -/
theorem run_of_step_eq_leave {nesting : Nesting ρ} {outer : List Enclosure} {reader : ρ}
    {context : Context} (hstep : nesting.step = leave outer reader context) :
    nesting.run = resume outer ⟨true, reader, context⟩ := by
  cases outer with
  | nil => exact run_of_step_eq_done hstep
  | cons group outer => exact run_of_step_eq_more hstep

/-- Assumes: a step that goes on. Inside of more groups it goes on in the same way. -/
theorem step_within_of_more {nesting after : Nesting ρ} (hstep : nesting.step = .more after)
    (outer : List Enclosure) : (nesting.within outer).step = .more (after.within outer) := by
  cases hnext : nesting.next? with
  | none =>
    rw [step_of_next?_eq_none hnext] at hstep
    cases hstep
  | some byte =>
    cases hturn : nesting.group.turn byte nesting.takeNext nesting.context with
    | close reader context =>
      have hwithin : (nesting.within outer).step = leave (nesting.outer ++ outer) reader context :=
        step_of_turn_eq_close hnext hturn
      rw [step_of_turn_eq_close hnext hturn] at hstep
      rw [hwithin]
      cases houter : nesting.outer with
      | nil =>
        rw [houter] at hstep
        cases hstep
      | cons group groups =>
        rw [houter] at hstep
        cases hstep
        rfl
    | nest inner reader context =>
      rw [step_of_turn_eq_nest hnext hturn] at hstep
      cases hstep
      exact step_of_turn_eq_nest hnext hturn
    | hold reader context =>
      rw [step_of_turn_eq_hold hnext hturn] at hstep
      cases hstep
      exact step_of_turn_eq_hold hnext hturn
    | unit pending reader context =>
      rw [step_of_turn_eq_unit hnext hturn] at hstep
      cases hstep
      exact step_of_turn_eq_unit hnext hturn

/-- Assumes: a step that finishes. Inside of more groups these go on from there. -/
theorem run_within_of_done {nesting : Nesting ρ} {outcome : Outcome ρ}
    (hstep : nesting.step = .done outcome) (outer : List Enclosure) :
    (nesting.within outer).run = resume outer outcome := by
  rcases step_eq_done_cases hstep with
    ⟨hnext, rfl⟩ | ⟨byte, reader, context, hnext, hturn, houter, rfl⟩
  · have hwithin : (nesting.within outer).step = .done (nesting.within outer).abandon :=
      step_of_next?_eq_none hnext
    rw [run_of_step_eq_done hwithin]
    simp [resume, abandon, within, List.foldl_append]
  · have hwithin : (nesting.within outer).step = leave (nesting.outer ++ outer) reader context :=
      step_of_turn_eq_close hnext hturn
    rw [houter, List.nil_append] at hwithin
    exact run_of_step_eq_leave hwithin

/-- A run inside of more groups is the run without them, followed by what becomes of them. -/
theorem run_within (nesting : Nesting ρ) (outer : List Enclosure) :
    (nesting.within outer).run = resume outer nesting.run := by
  fun_induction run nesting with
  | case1 nesting outcome hstep => exact run_within_of_done hstep outer
  | case2 nesting after hstep ih => rw [run_of_step_eq_more (step_within_of_more hstep outer), ih]

/-- Assumes: a group inside of another one, and a run that finds the end of both. The inner group is
found complete on its own, and the other one goes on after it. -/
theorem run_enter_of_matched {inner group : Enclosure} {reader : ρ} {context : Context}
    (hmatched : (enter inner [group] reader context).run.matched = true) :
    let found := (enter inner [] reader context).run
    found.matched = true ∧
      (enter inner [group] reader context).run =
        (enter group [] found.reader found.context).run := by
  intro found
  have hwithin : (enter inner [group] reader context).run = resume [group] found :=
    run_within (enter inner [] reader context) [group]
  rw [hwithin, resume] at hmatched ⊢
  split at hmatched
  · rename_i hinner
    rw [if_pos hinner]
    exact ⟨hinner, rfl⟩
  · rename_i hinner
    exact absurd hmatched hinner

/-! ### Runs that fail -/

/-- The text is read to its end by every run that does not find the end of its group. -/
theorem rest_run_eq_nil {nesting : Nesting ρ} (hmatched : nesting.run.matched = false) :
    rest nesting.run.reader = [] := by
  fun_induction run nesting with
  | case1 nesting outcome hstep =>
    rcases step_eq_done_cases hstep with ⟨hnext, rfl⟩ | ⟨byte, reader, context, -, -, -, rfl⟩
    · have hremaining := remaining_eq_nil hnext
      rw [remaining, List.append_eq_nil_iff] at hremaining
      rw [abandon, rest_foldl_mark, hremaining.2]
    · cases hmatched
  | case2 nesting after hstep ih => exact ih hmatched

end Nesting

end GrammarFragments
