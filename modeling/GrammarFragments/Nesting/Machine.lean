import GrammarFragments.Nesting.Enclosure

/-!
The machine that follows groups to their end. A configuration holds the innermost open group, the
groups around it, a character that a probe has handed back, and the reader. The groups around are a
list, so text that nests deeply costs memory in proportion and nothing else.

One step takes one character, either the one handed back or the current one, and lets the innermost
group have its turn. When a group closes, the group around it goes on after a complete unit. At the
end of the text every open group is abandoned, from the innermost outwards, and each of those around
it commits the end of the token once more.

Main statements: every step lowers the weight of the configuration, twice the number of characters
still to read and one more for a character handed back (`weight_lt_of_step_eq_more`), so a run ends;
it leaves a suffix of the rest (`rest_run_suffix`).
-/

set_option autoImplicit false
set_option relaxedAutoImplicit false

namespace GrammarFragments

/-- The state of the machine between two steps. -/
structure Nesting (ρ : Type) where
  /-- The innermost open group. -/
  group : Enclosure
  /-- The groups around it, from the inside out. -/
  outer : List Enclosure
  /-- A character that was passed and handed back: it comes before the current one. -/
  pending : Option UInt8
  reader : ρ
  context : Context

namespace Nesting

open Reader

/-- The result of a step. -/
inductive Progress (ρ : Type)
  | done (outcome : Outcome ρ)
  | more (nesting : Nesting ρ)

section Basic

variable {ρ : Type} [Reader ρ]

/-- The next character to take, if there is one. -/
def next? (nesting : Nesting ρ) : Option UInt8 :=
  match nesting.pending with
  | some byte => some byte
  | none => if atEnd nesting.reader then none else some (current nesting.reader)

/-- The reader after that character has been taken. -/
def takeNext (nesting : Nesting ρ) : ρ :=
  match nesting.pending with
  | some _ => nesting.reader
  | none => advance nesting.reader

/-- The configuration in which `group` has just been opened. -/
def enter (group : Enclosure) (outer : List Enclosure) (reader : ρ) (context : Context) :
    Nesting ρ :=
  ⟨group, outer, none, group.mark reader, context⟩

/-- The end of the text has been reached inside of the groups. -/
def abandon (nesting : Nesting ρ) : Outcome ρ :=
  ⟨false, nesting.outer.foldl (fun reader group ↦ group.mark reader) nesting.reader,
    nesting.context⟩

/-- The innermost group is closed: the one around it goes on, if there is one. -/
def leave (outer : List Enclosure) (reader : ρ) (context : Context) : Progress ρ :=
  match outer with
  | [] => .done ⟨true, reader, context⟩
  | group :: outer => .more (enter group outer reader context)

/-- Twice the number of characters still to read, and one more for a character handed back. -/
def weight (nesting : Nesting ρ) : Nat :=
  2 * (rest nesting.reader).length + if nesting.pending.isSome then 1 else 0

end Basic

variable {ρ : Type} [SeekReader ρ]

/-- Takes one character. After a unit the group commits the end of the token, unless the character
handed back is its own closer, which is then already behind the reader. -/
def step (nesting : Nesting ρ) : Progress ρ :=
  match nesting.next? with
  | none => .done nesting.abandon
  | some byte =>
    match nesting.group.turn byte nesting.takeNext nesting.context with
    | .close reader context => leave nesting.outer reader context
    | .nest inner reader context =>
      .more (enter inner (nesting.group :: nesting.outer) reader context)
    | .hold reader context => .more { nesting with pending := none, reader, context }
    | .unit pending reader context =>
      if pending = some nesting.group.closer then .more { nesting with pending, reader, context }
      else .more { nesting with pending, reader := nesting.group.mark reader, context }

/-! ### Progress -/

theorem weight_of_pending_eq_none {nesting : Nesting ρ} (hpending : nesting.pending = none) :
    nesting.weight = 2 * (rest nesting.reader).length := by
  simp [weight, hpending]

/-- Taking a character lowers the weight. -/
theorem two_mul_length_rest_takeNext_lt {nesting : Nesting ρ} {byte : UInt8}
    (hnext : nesting.next? = some byte) :
    2 * (rest nesting.takeNext).length < nesting.weight := by
  cases hpending : nesting.pending with
  | some pending => simp [takeNext, weight, hpending]
  | none =>
    have hend : atEnd nesting.reader = false := by
      cases hend : atEnd nesting.reader with
      | false => rfl
      | true => simp [next?, hpending, hend] at hnext
    have hlt := length_rest_advance_lt hend
    rw [weight_of_pending_eq_none hpending]
    simp only [takeNext, hpending]
    omega

theorem two_mul_length_rest_turn_lt {nesting : Nesting ρ} {byte : UInt8}
    (hnext : nesting.next? = some byte) :
    2 * (rest (nesting.group.turn byte nesting.takeNext nesting.context).reader).length <
      nesting.weight :=
  Nat.lt_of_le_of_lt
    (Nat.mul_le_mul_left 2 (Enclosure.rest_turn_suffix _ _ _ _).length_le)
    (two_mul_length_rest_takeNext_lt hnext)

/-- Every step lowers the weight. -/
theorem weight_lt_of_step_eq_more {nesting after : Nesting ρ}
    (hstep : nesting.step = .more after) : after.weight < nesting.weight := by
  rw [step] at hstep
  split at hstep
  · simp at hstep
  · rename_i byte hnext
    have hturn := two_mul_length_rest_turn_lt hnext
    have htake := two_mul_length_rest_takeNext_lt hnext
    split at hstep
    · rename_i reader context hclose
      rw [hclose] at hturn
      cases houter : nesting.outer with
      | nil => simp [leave, houter] at hstep
      | cons group outer =>
        rw [houter] at hstep
        cases hstep
        simpa [weight, enter, Turn.reader] using hturn
    · rename_i inner reader context hnest
      rw [hnest] at hturn
      cases hstep
      simpa [weight, enter, Turn.reader] using hturn
    · rename_i reader context hhold
      rw [hhold] at hturn
      cases hstep
      simpa [weight, Turn.reader] using hturn
    · rename_i pending reader context hunit
      have hpassed : (rest reader).length + (if pending.isSome then 1 else 0) ≤
          (rest nesting.takeNext).length := by
        split
        · rename_i hsome
          have hlt := Enclosure.length_rest_turn_lt (by rw [hunit]; exact hsome)
          rw [hunit] at hlt
          exact hlt
        · have hle := (Enclosure.rest_turn_suffix nesting.group byte nesting.takeNext
            nesting.context).length_le
          rw [hunit] at hle
          exact hle
      split at hstep
      · cases hstep
        simp only [weight]
        simp only [weight] at htake
        omega
      · cases hstep
        simp only [weight, Enclosure.rest_mark]
        simp only [weight] at htake
        omega

/-- Steps until the outermost group is closed or the text ends. -/
def run (nesting : Nesting ρ) : Outcome ρ :=
  match _hstep : nesting.step with
  | .done outcome => outcome
  | .more after => after.run
termination_by nesting.weight
decreasing_by exact weight_lt_of_step_eq_more _hstep

theorem run_of_step_eq_done {nesting : Nesting ρ} {outcome : Outcome ρ}
    (hstep : nesting.step = .done outcome) : nesting.run = outcome := by
  rw [run]
  split
  · rename_i hdone
    rw [hstep] at hdone
    cases hdone
    rfl
  · rename_i hmore
    rw [hstep] at hmore
    cases hmore

theorem run_of_step_eq_more {nesting after : Nesting ρ} (hstep : nesting.step = .more after) :
    nesting.run = after.run := by
  rw [run]
  split
  · rename_i hdone
    rw [hstep] at hdone
    cases hdone
  · rename_i hmore
    rw [hstep] at hmore
    cases hmore
    rfl

/-! ### What a run passes -/

theorem rest_takeNext_suffix (nesting : Nesting ρ) :
    rest nesting.takeNext <:+ rest nesting.reader := by
  rw [takeNext]
  split
  · exact List.suffix_rfl
  · exact rest_advance_suffix _

theorem rest_foldl_mark (groups : List Enclosure) (reader : ρ) :
    rest (groups.foldl (fun reader group ↦ group.mark reader) reader) = rest reader := by
  induction groups generalizing reader with
  | nil => rfl
  | cons group groups ih => rw [List.foldl_cons, ih, Enclosure.rest_mark]

theorem rest_step_suffix (nesting : Nesting ρ) :
    match nesting.step with
    | .done outcome => rest outcome.reader <:+ rest nesting.reader
    | .more after => rest after.reader <:+ rest nesting.reader := by
  cases hnext : nesting.next? with
  | none =>
    simp only [step, hnext, abandon, rest_foldl_mark]
    exact List.suffix_rfl
  | some byte =>
    have hturn := (Enclosure.rest_turn_suffix nesting.group byte nesting.takeNext
      nesting.context).trans nesting.rest_takeNext_suffix
    simp only [step, hnext]
    cases hresult : nesting.group.turn byte nesting.takeNext nesting.context with
    | close reader context =>
      rw [hresult] at hturn
      cases nesting.outer with
      | nil => exact hturn
      | cons group outer => simpa [leave, enter, Turn.reader] using hturn
    | nest inner reader context =>
      rw [hresult] at hturn
      simpa [enter, Turn.reader] using hturn
    | hold reader context =>
      rw [hresult] at hturn
      exact hturn
    | unit pending reader context =>
      rw [hresult] at hturn
      by_cases hcloser : pending = some nesting.group.closer
      · simpa [hcloser, Turn.reader] using hturn
      · simpa [hcloser, Turn.reader] using hturn

/-- The reader after a run has a suffix of the rest still to read. -/
theorem rest_run_suffix (nesting : Nesting ρ) :
    rest nesting.run.reader <:+ rest nesting.reader := by
  fun_induction run nesting with
  | case1 nesting outcome hstep =>
    have hsuffix := nesting.rest_step_suffix
    rw [hstep] at hsuffix
    exact hsuffix
  | case2 nesting after hstep ih =>
    have hsuffix := nesting.rest_step_suffix
    rw [hstep] at hsuffix
    exact ih.trans hsuffix

theorem rest_run_enter_suffix (group : Enclosure) (outer : List Enclosure) (reader : ρ)
    (context : Context) : rest (enter group outer reader context).run.reader <:+ rest reader :=
  Enclosure.rest_mark group reader ▸ rest_run_suffix (enter group outer reader context)

end Nesting

end GrammarFragments
