import GrammarFragments.Proofs.Nesting.Endings
import GrammarFragments.Proofs.Printed.Extents

/-!
Where the token of embedded code ends, to the byte. It ends in front of the brace that closes the
code, and in front of the percent sign of a closing `%}`. For the percent sign there is one
exception: if it comes right after an apostrophe that is a unit by itself, the probe for a character
literal has already passed the percent sign and handed it back, and the end of the token is
committed behind it. Then the percent sign stays in the token.

Whether the last percent sign is going to be held back is a property of the configuration
(`HoldsPercent`), in terms of the places at which the units of the depth counter start. What the
outermost block does next is said once (`CodeGoesOn`): no unit changes that property, and at the
last one it decides where the end is committed (`endsCommitted_run`). Main statement:
`code_token_end`; `code_token_keeps_percent` is the shortest code with the exception.
-/

set_option autoImplicit false
set_option relaxedAutoImplicit false

namespace GrammarFragments

open Reader

/-! ### Turns of a code block -/

/-- The two characters of `%}` in front of what is left. -/
abbrev percentBrace (left : List UInt8) : List UInt8 :=
  Ascii.percent :: Ascii.braceClose :: left

namespace Enclosure

variable {ρ : Type} [SeekReader ρ] {byte : UInt8} {reader stopped : ρ} {context after : Context}

/-- Only after an apostrophe a character is handed back. -/
theorem eq_apostrophe_of_commonTurn {group : Enclosure} {handed : UInt8}
    (hturn : group.commonTurn byte reader context = .unit (some handed) stopped after) :
    byte = Ascii.apostrophe := by
  simp only [commonTurn] at hturn
  split_ifs at hturn with hparen hstar hquote hstring hword
  · cases hturn
  · exact hquote
  · cases hturn
  · cases hturn
  · cases hturn

theorem eq_apostrophe_of_codeTurn {handed : UInt8}
    (hturn : turn .code byte reader context = .unit (some handed) stopped after) :
    byte = Ascii.apostrophe := by
  simp only [turn, codeTurn] at hturn
  split_ifs at hturn with hclose hbrace hquoted hpercent
  · cases hturn
  · exact eq_apostrophe_of_commonTurn hturn

theorem codeTurn_percent (reader : ρ) (context : Context) :
    turn .code Ascii.percent reader context =
      if current reader = Ascii.braceClose then .hold reader context
      else .unit none reader context := by
  by_cases hcloser : current reader = Ascii.braceClose
  · rw [if_pos hcloser]
    exact if_pos ⟨rfl, hcloser⟩
  · rw [if_neg hcloser]
    exact if_neg fun hheld ↦ hcloser hheld.2

theorem codeTurn_apostrophe (reader : ρ) (context : Context) :
    turn .code Ascii.apostrophe reader context =
      .unit (CharLiteral.probe (mark .code reader)).1.pending
        (CharLiteral.probe (mark .code reader)).2 context := by
  have hheld : ¬ (Ascii.apostrophe = Ascii.percent ∧ current reader = Ascii.braceClose) :=
    fun hheld ↦ absurd hheld.1 (by decide)
  simp only [turn, codeTurn]
  rw [if_neg (by decide), if_neg (by decide), if_neg hheld]
  rfl

/-- A character that opens a group is no percent sign and no apostrophe. -/
theorem ne_of_codeTurn_eq_nest {inner : Enclosure}
    (hturn : turn .code byte reader context = .nest inner stopped after) :
    byte ≠ Ascii.percent ∧ byte ≠ Ascii.apostrophe := by
  constructor
  · rintro rfl
    rw [codeTurn_percent] at hturn
    split_ifs at hturn with hcloser
  · rintro rfl
    rw [codeTurn_apostrophe] at hturn
    cases hturn

/-- Assumes: a unit that is passed. It hands back the percent sign of a `%}` exactly if it is an
apostrophe right in front of it. -/
theorem codeTurn_hands_back_percent_iff {pending : Option UInt8} {left : List UInt8}
    (hturn : turn .code byte reader context = .unit pending stopped after) :
    byte = Ascii.apostrophe ∧ rest reader = percentBrace left ↔
      pending = some Ascii.percent ∧ pending.toList ++ rest stopped = percentBrace left := by
  constructor
  · rintro ⟨rfl, hrest⟩
    have hmarked : rest (mark .code reader) = percentBrace left := by rw [rest_mark, hrest]
    have hstarts : startsNoLiteral (rest (mark .code reader)) = true := by
      rw [hmarked]
      rfl
    have hcurrent : current (mark .code reader) = Ascii.percent := by
      rw [current_eq_headD, hmarked, List.headD_cons]
    rw [codeTurn_apostrophe, probe_of_startsNoLiteral hstarts, hcurrent, Turn.unit.injEq] at hturn
    obtain ⟨rfl, rfl, -⟩ := hturn
    refine ⟨rfl, ?_⟩
    rw [rest_advance, hmarked]
    rfl
  · rintro ⟨rfl, hleft⟩
    obtain ⟨hcurrent, rfl⟩ := turn_hands_back hturn
    refine ⟨eq_apostrophe_of_codeTurn hturn, ?_⟩
    rw [← hleft, rest_advance, rest_mark, ← rest_advance]
    exact (cons_rest_advance hcurrent.symm (by decide)).symm

end Enclosure

/-! ### Percent signs that are held back -/

/-- A code block that ends in front of `left` is going to end with `%}`, and its percent sign is
going to be read as a character of the text rather than as one handed back. -/
structure HoldsPercent {ρ : Type} [SeekReader ρ] (nesting : Nesting ρ) (left : List UInt8) :
    Prop where
  is_unit : (1, percentBrace left) ∈ codeCounter.places 1 nesting.remaining
  not_handed_back : ¬ (nesting.pending = some Ascii.percent ∧
    nesting.remaining = percentBrace left)
  not_after_apostrophe : (1, Ascii.apostrophe :: percentBrace left) ∉
    codeCounter.places 1 nesting.remaining

section HoldsPercent

variable {ρ : Type} [SeekReader ρ] {nesting after : Nesting ρ} {left : List UInt8}

theorem mem_places_cons {byte : UInt8} {chars others : List UInt8} :
    (1, others) ∈ codeCounter.places 1 (byte :: chars) ↔
      others = byte :: chars ∨
        (1, others) ∈ codeCounter.places ((codeUnit byte chars).1.apply 1)
          (codeUnit byte chars).2 := by
  rw [DepthCounter.places, List.mem_cons, Prod.mk.injEq]
  exact or_congr (and_iff_right rfl) Iff.rfl

/-- No unit of the count starts at or after the brace that closes the code, except that brace. -/
theorem mem_places_braceClose {chars others : List UInt8} :
    (1, others) ∈ codeCounter.places 1 (Ascii.braceClose :: chars) ↔
      others = Ascii.braceClose :: chars := by
  have hlast : codeCounter.places ((codeUnit Ascii.braceClose chars).1.apply 1)
      (codeUnit Ascii.braceClose chars).2 = [] := by
    change codeCounter.places 0 chars = []
    rw [DepthCounter.places]
  rw [mem_places_cons, hlast]
  exact or_iff_left List.not_mem_nil

/-- Assumes: a unit from one configuration to another, which is not the last percent sign, and which
hands that percent sign back exactly if it is the apostrophe in front of it. It makes no difference
to the percent sign. -/
theorem holdsPercent_iff
    (hplaces : ∀ others, (1, others) ∈ codeCounter.places 1 nesting.remaining ↔
      others = nesting.remaining ∨ (1, others) ∈ codeCounter.places 1 after.remaining)
    (hpercent : nesting.remaining ≠ percentBrace left)
    (hhanded : nesting.remaining = Ascii.apostrophe :: percentBrace left ↔
      after.pending = some Ascii.percent ∧ after.remaining = percentBrace left) :
    HoldsPercent nesting left ↔ HoldsPercent after left := by
  have hunit := (hplaces (percentBrace left)).trans (or_iff_right hpercent.symm)
  have hapostrophe : (1, Ascii.apostrophe :: percentBrace left) ∉
        codeCounter.places 1 nesting.remaining ↔
      ¬ (after.pending = some Ascii.percent ∧ after.remaining = percentBrace left) ∧
        (1, Ascii.apostrophe :: percentBrace left) ∉ codeCounter.places 1 after.remaining := by
    rw [hplaces, ← hhanded, eq_comm, not_or]
  constructor
  · rintro ⟨his, -, hnot⟩
    exact ⟨hunit.mp his, (hapostrophe.mp hnot).1, (hapostrophe.mp hnot).2⟩
  · rintro ⟨his, hnot, hafter⟩
    exact ⟨hunit.mpr his, fun hback ↦ hpercent hback.2, hapostrophe.mpr ⟨hnot, hafter⟩⟩

/-- A unit of the outermost block that is passed without opening a group. -/
theorem holdsPercent_iff_of_unit {byte : UInt8} {pending : Option UInt8} {reader : ρ}
    {context : Context} (hnext : nesting.next? = some byte)
    (hturn : Enclosure.turn .code byte nesting.takeNext nesting.context =
      .unit pending reader context)
    (hplaces : ∀ others, (1, others) ∈ codeCounter.places 1 nesting.remaining ↔
      others = nesting.remaining ∨
        (1, others) ∈ codeCounter.places 1 (pending.toList ++ rest reader))
    (hpending : after.pending = pending) (hrest : rest after.reader = rest reader) :
    HoldsPercent nesting left ↔ HoldsPercent after left := by
  have hremaining : after.remaining = pending.toList ++ rest reader := by
    rw [Nesting.remaining, hpending, hrest]
  refine holdsPercent_iff (by rw [hremaining]; exact hplaces) ?_ ?_
  · rw [Nesting.remaining_eq_cons hnext]
    intro hpercent
    rw [List.cons.injEq] at hpercent
    have hcloser : current nesting.takeNext = Ascii.braceClose := by
      rw [current_eq_headD, hpercent.2, List.headD_cons]
    rw [hpercent.1, Enclosure.codeTurn_percent, if_pos hcloser] at hturn
    cases hturn
  · rw [hpending, hremaining, Nesting.remaining_eq_cons hnext, List.cons.injEq]
    exact Enclosure.codeTurn_hands_back_percent_iff hturn

/-- A unit of the outermost block with a group inside, after which the block goes on. -/
theorem holdsPercent_iff_enter {byte : UInt8} {reader : ρ} {context : Context}
    (hnext : nesting.next? = some byte)
    (hbyte : byte ≠ Ascii.percent ∧ byte ≠ Ascii.apostrophe)
    (hplaces : ∀ others, (1, others) ∈ codeCounter.places 1 nesting.remaining ↔
      others = nesting.remaining ∨ (1, others) ∈ codeCounter.places 1 (rest reader)) :
    HoldsPercent nesting left ↔
      HoldsPercent (Nesting.enter .code [] reader context) left := by
  have hremaining := Nesting.remaining_eq_cons hnext
  refine holdsPercent_iff (by rw [Nesting.remaining_enter]; exact hplaces) ?_ (iff_of_false ?_ ?_)
  · rw [hremaining]
    exact fun hpercent ↦ hbyte.1 (List.head_eq_of_cons_eq hpercent)
  · rw [hremaining]
    exact fun hapostrophe ↦ hbyte.2 (List.head_eq_of_cons_eq hapostrophe)
  · exact nofun

/-- A brace that closes the code is not the percent sign in front of it. -/
theorem not_holdsPercent (hremaining : nesting.remaining = Ascii.braceClose :: left) :
    ¬ HoldsPercent nesting left := by
  rintro ⟨his, -, -⟩
  rw [hremaining, mem_places_braceClose] at his
  cases his

/-- In front of the last percent sign, it is held back unless it was handed back. -/
theorem holdsPercent_of_percent (hremaining : nesting.remaining = percentBrace left) :
    HoldsPercent nesting left ↔ nesting.pending ≠ some Ascii.percent := by
  constructor
  · rintro ⟨-, hnot, -⟩ hpending
    exact hnot ⟨hpending, hremaining⟩
  · intro hpending
    refine ⟨?_, fun hback ↦ hpending hback.1, ?_⟩
    · rw [hremaining, mem_places_cons]
      exact .inl rfl
    · rw [hremaining, mem_places_cons]
      rintro (hsame | hlater)
      · cases hsame
      · cases mem_places_braceClose.mp hlater

end HoldsPercent

/-! ### The end of the token -/

/-- After a unit of an outermost code block the end of the token is committed here, or in front of
the closer if that has been passed and handed back. -/
def CommittedAfterUnit (pending : Option UInt8) (reader : ByteReader) : Prop :=
  reader.committed =
    some (if pending = some Ascii.braceClose then reader.offset - 1 else reader.offset)

/-- The end of the token of complete code: in front of the percent sign if it is held back, and in
front of the closer otherwise. -/
def EndsCommitted (held : Prop) (stopped : ByteReader) : Prop :=
  (held ∧ 1 < stopped.offset ∧ stopped.committed = some (stopped.offset - 2) ∧
      stopped.source.byteAt (stopped.offset - 2) = Ascii.percent) ∨
    (¬ held ∧ stopped.committed = some (stopped.offset - 1))

theorem committedAfterUnit_mark (reader : ByteReader) {pending : Option UInt8}
    (hpending : pending ≠ some Ascii.braceClose) :
    CommittedAfterUnit pending (Enclosure.mark .code reader) := by
  rw [CommittedAfterUnit, if_neg hpending]
  rfl

theorem committedAfterUnit_afterUnit {byte : UInt8} {reader stopped : ByteReader}
    {context after : Context} {pending : Option UInt8}
    (hturn : Enclosure.turn .code byte reader context = .unit pending stopped after) :
    CommittedAfterUnit pending (Nesting.afterUnit .code pending stopped) := by
  by_cases hpending : pending = some Ascii.braceClose
  · subst hpending
    obtain ⟨hcurrent, rfl⟩ := Enclosure.turn_hands_back hturn
    have hoffset : (advance (Enclosure.mark .code reader)).offset = reader.offset + 1 :=
      ByteReader.offset_advance hcurrent.symm rfl (by decide)
    change CommittedAfterUnit _ (advance (Enclosure.mark .code reader))
    rw [CommittedAfterUnit, if_pos rfl, hoffset]
    rfl
  · have hmarked : Nesting.afterUnit .code pending stopped = Enclosure.mark .code stopped :=
      if_neg hpending
    rw [hmarked]
    exact committedAfterUnit_mark stopped hpending

section Run

variable {nesting : Nesting ByteReader} {byte : UInt8}

/-- The brace that closes the code is passed. -/
theorem endsCommitted_of_close (hnext : nesting.next? = some Ascii.braceClose)
    (hcommitted : CommittedAfterUnit nesting.pending nesting.reader) :
    EndsCommitted (HoldsPercent nesting (rest nesting.takeNext)) nesting.takeNext := by
  refine .inr ⟨not_holdsPercent (Nesting.remaining_eq_cons hnext), ?_⟩
  rcases Nesting.next?_cases hnext with ⟨hpending, htake⟩ | ⟨hpending, hcurrent, htake⟩
  · rw [CommittedAfterUnit, if_pos hpending] at hcommitted
    rw [htake]
    exact hcommitted
  · rw [CommittedAfterUnit, hpending, if_neg nofun] at hcommitted
    have hoffset := ByteReader.offset_advance hcurrent rfl (by decide)
    rw [htake, hoffset]
    exact hcommitted

/-- A percent sign and the brace after it, which closes the code, are passed. -/
theorem endsCommitted_of_hold (hnext : nesting.next? = some Ascii.percent)
    (hcommitted : CommittedAfterUnit nesting.pending nesting.reader)
    (hcloser : current nesting.takeNext = Ascii.braceClose) :
    EndsCommitted (HoldsPercent nesting (rest (advance nesting.takeNext)))
      (advance nesting.takeNext) := by
  have hremaining : nesting.remaining = percentBrace (rest (advance nesting.takeNext)) := by
    rw [Nesting.remaining_eq_cons hnext, ← cons_rest_advance hcloser (by decide)]
  have hoffset := ByteReader.offset_advance hcloser rfl (by decide)
  rw [EndsCommitted, holdsPercent_of_percent hremaining, hoffset]
  rcases Nesting.next?_cases hnext with ⟨hpending, htake⟩ | ⟨hpending, hcurrent, htake⟩
  · refine .inr ⟨fun hnot ↦ hnot hpending, ?_⟩
    rw [CommittedAfterUnit, hpending, if_neg (by decide)] at hcommitted
    rw [htake]
    exact hcommitted
  · rw [CommittedAfterUnit, hpending, if_neg nofun] at hcommitted
    have hpercent := ByteReader.offset_advance hcurrent rfl (by decide)
    refine .inl ⟨by rw [hpending]; exact nofun, ?_⟩
    rw [htake, hpercent]
    exact ⟨by omega, hcommitted, hcurrent⟩

/-! ### From unit to unit -/

/-- What comes next in an outermost code block that is found complete: the brace that closes it; a
percent sign and that brace; or a unit, behind which the end of the token is committed, and which
makes no difference to the last percent sign. -/
inductive CodeGoesOn (nesting : Nesting ByteReader) : Prop
  | closes (hnext : nesting.next? = some Ascii.braceClose)
    (hstopped : nesting.run.reader = nesting.takeNext)
  | holds (hnext : nesting.next? = some Ascii.percent)
    (hcloser : current nesting.takeNext = Ascii.braceClose)
    (hstopped : nesting.run.reader = advance nesting.takeNext)
  | passes (after : Nesting ByteReader) (hgroup : after.group = .code) (houter : after.outer = [])
    (hweight : after.weight < nesting.weight) (hrun : nesting.run = after.run)
    (hcommitted : CommittedAfterUnit after.pending after.reader)
    (hheld : ∀ left, HoldsPercent nesting left ↔ HoldsPercent after left)

/-- The brace that closes an outermost code block ends the run. -/
theorem run_of_braceClose (hgroup : nesting.group = .code) (houter : nesting.outer = [])
    (hnext : nesting.next? = some Ascii.braceClose) :
    nesting.run = ⟨true, nesting.takeNext, nesting.context⟩ := by
  have hturn : nesting.group.turn Ascii.braceClose nesting.takeNext nesting.context =
      .close nesting.takeNext nesting.context := by
    rw [hgroup]
    rfl
  rw [Nesting.run_of_step_eq_leave (Nesting.step_of_turn_eq_close hnext hturn), houter]
  rfl

theorem codeGoesOn_of_hold {reader : ByteReader} {context : Context}
    (hgroup : nesting.group = .code) (houter : nesting.outer = [])
    (hnext : nesting.next? = some byte)
    (hturn : nesting.group.turn byte nesting.takeNext nesting.context = .hold reader context) :
    CodeGoesOn nesting := by
  obtain ⟨-, rfl, hcloser, rfl⟩ := Enclosure.eq_percent_of_turn_eq_hold hturn
  refine .holds hnext hcloser ?_
  rw [Nesting.run_of_step_eq_more (Nesting.step_of_turn_eq_hold hnext hturn)]
  have hend : ¬ atEnd nesting.takeNext = true := by
    rw [atEnd_eq_false_of_current_ne_zero (by rw [hcloser]; decide)]
    exact Bool.false_ne_true
  refine congrArg Outcome.reader (run_of_braceClose ?_ ?_ ?_)
  · exact hgroup
  · exact houter
  · simp only [Nesting.next?, if_neg hend, hcloser]

/-- Assumes: a character that opens a group, behind which the other units of the block start. The
group is a unit of the block. -/
theorem codeGoesOn_of_nest {inner : Enclosure} {reader : ByteReader} {context : Context}
    (hgroup : nesting.group = .code) (houter : nesting.outer = [])
    (hmatched : nesting.run.matched = true) (hnext : nesting.next? = some byte)
    (hturn : nesting.group.turn byte nesting.takeNext nesting.context = .nest inner reader context)
    (hplaces : (Nesting.enter inner [] reader context).run.matched = true →
      ∀ others, (1, others) ∈ codeCounter.places 1 nesting.remaining ↔
        others = nesting.remaining ∨ (1, others) ∈
          codeCounter.places 1 (rest (Nesting.enter inner [] reader context).run.reader)) :
    CodeGoesOn nesting := by
  have hlt := Nesting.two_mul_length_rest_turn_lt hnext
  rw [hturn] at hlt
  have hrun := Nesting.run_of_step_eq_more (Nesting.step_of_turn_eq_nest hnext hturn)
  rw [houter, hgroup] at hrun
  rw [hrun] at hmatched
  obtain ⟨hinner, hafter⟩ := Nesting.run_enter_of_matched hmatched
  rw [hgroup] at hturn
  refine .passes _ rfl rfl ?_ (hrun.trans hafter) (committedAfterUnit_mark _ nofun) fun left ↦
    holdsPercent_iff_enter hnext (Enclosure.ne_of_codeTurn_eq_nest hturn) (hplaces hinner)
  rw [Nesting.weight_enter]
  have hsuffix := (Nesting.rest_run_enter_suffix inner [] reader context).length_le
  exact Nat.lt_of_le_of_lt (Nat.mul_le_mul_left 2 hsuffix) hlt

/-- Assumes: an outermost code block between two units, which is found complete. Nothing else can
come next. -/
theorem codeGoesOn (hgroup : nesting.group = .code) (houter : nesting.outer = [])
    (hmatched : nesting.run.matched = true) : CodeGoesOn nesting := by
  cases hnext : nesting.next? with
  | none =>
    rw [Nesting.run_of_step_eq_done (Nesting.step_of_next?_eq_none hnext)] at hmatched
    cases hmatched
  | some byte =>
    have hfollows := follows_codeTurn byte nesting.takeNext nesting.context
    have hplaces : ∀ others, (1, others) ∈ codeCounter.places 1 nesting.remaining ↔
        others = nesting.remaining ∨
          (1, others) ∈ codeCounter.places ((codeUnit byte (rest nesting.takeNext)).1.apply 1)
            (codeUnit byte (rest nesting.takeNext)).2 := by
      intro others
      rw [Nesting.remaining_eq_cons hnext]
      exact mem_places_cons
    rw [← hgroup] at hfollows
    generalize hturn : nesting.group.turn byte nesting.takeNext nesting.context = turn at hfollows
    generalize codeUnit byte (rest nesting.takeNext) = unit at hfollows hplaces
    cases hfollows with
    | close reader context =>
      rw [hgroup] at hturn
      obtain ⟨rfl, -⟩ := Enclosure.eq_closer_of_turn_eq_close rfl hturn
      exact .closes hnext (congrArg Outcome.reader (run_of_braceClose hgroup houter hnext))
    | nest reader context =>
      refine codeGoesOn_of_nest hgroup houter hmatched hnext hturn fun hinner others ↦ ?_
      have hcount : (Nesting.enter .code [] reader context).run.verdict =
          codeCounter.run 1 (rest reader) := Enclosure.verdict_run_enter .code reader context
      rw [hgroup] at hinner ⊢
      rw [hplaces, DepthChange.apply, DepthCounter.mem_places_succ, ← hcount]
      exact or_congr Iff.rfl (and_iff_right hinner)
    | hold reader context => exact codeGoesOn_of_hold hgroup houter hnext hturn
    | unit pending reader context =>
      have hstep := Nesting.step_of_turn_eq_unit hnext hturn
      rw [hgroup] at hturn hstep
      refine .passes _ ?_ ?_ (Nesting.weight_lt_of_step_eq_more hstep)
        (Nesting.run_of_step_eq_more hstep) (committedAfterUnit_afterUnit hturn) fun left ↦ ?_
      · rfl
      · exact houter
      · exact holdsPercent_iff_of_unit hnext hturn hplaces rfl (Nesting.rest_afterUnit _ _ _)
    | comment reader context =>
      exact codeGoesOn_of_nest hgroup houter hmatched hnext hturn fun _ ↦ hplaces
    | exhausted context hrest =>
      have hverdict : nesting.run.verdict = (false, []) := by
        rw [Nesting.run_of_step_eq_more (Nesting.step_of_turn_eq_nest hnext hturn)]
        exact verdict_run_of_remaining_eq_nil (by rw [Nesting.remaining_enter, hrest])
      rw [(Outcome.verdict_eq_iff.mp hverdict).1] at hmatched
      cases hmatched

/-- Assumes: an outermost code block between two units, which is found complete. The token ends in
front of the closer, or in front of a percent sign that is held back. -/
theorem endsCommitted_run (hgroup : nesting.group = .code) (houter : nesting.outer = [])
    (hcommitted : CommittedAfterUnit nesting.pending nesting.reader)
    (hmatched : nesting.run.matched = true) :
    EndsCommitted (HoldsPercent nesting (rest nesting.run.reader)) nesting.run.reader := by
  -- A whole group may lie between two units, so the induction is on the weight.
  induction hweight : nesting.weight using Nat.strongRecOn generalizing nesting with
  | ind weight ih =>
    subst hweight
    cases codeGoesOn hgroup houter hmatched with
    | closes hnext hstopped =>
      rw [hstopped]
      exact endsCommitted_of_close hnext hcommitted
    | holds hnext hcloser hstopped =>
      rw [hstopped]
      exact endsCommitted_of_hold hnext hcommitted hcloser
    | passes after hcode houtermost hless hrun hkept hheld =>
      rw [hrun] at hmatched ⊢
      rw [EndsCommitted, hheld]
      exact ih after.weight hless hcode houtermost hkept hmatched rfl

end Run

/-! ### The last characters of the code -/

namespace Source

variable {source : Source} {first last : Nat}

theorem lt_size_of_byteAt_eq {byte : UInt8} (hbyte : source.byteAt last = byte)
    (hzero : byte ≠ 0) : last < source.size := by
  by_contra hend
  rw [byteAt, dif_neg hend] at hbyte
  exact hzero hbyte.symm

/-- A walk meets every ASCII character in front of it. -/
theorem charsFrom_suffix (hle : first ≤ last) (hlast : last < source.size)
    (hascii : isAscii (source.byteAt last) = true) :
    source.charsFrom last <:+ source.charsFrom first := by
  fun_induction charsFrom source first with
  | case1 first hfirst ih =>
    rcases Nat.eq_or_lt_of_le hle with rfl | hlt
    · exact ⟨[], charsFrom_of_lt hlast⟩
    · have hnext : source.next first ≤ last := by
        by_contra hpassed
        have hhigh := le_byteAt_of_lt_next hlt (Nat.not_le.mp hpassed)
        exact UInt8.not_le.mpr (lt_of_isAscii hascii) hhigh
      exact (ih hnext).trans (List.suffix_cons _ _)
  | case2 first hend => exact absurd (Nat.lt_of_le_of_lt hle hlast) hend

/-- Embedded code from `first` to `last` ends with an apostrophe and `%}`, and the apostrophe is a
unit of the outermost block. The probe for a character literal, which finds none, hands the percent
sign back. -/
def EndsProbed (source : Source) (first last : Nat) : Prop :=
  (1, Ascii.apostrophe :: percentBrace (source.charsFrom last)) ∈
    codeCounter.places 1 (source.charsFrom first)

instance : Decidable (source.EndsProbed first last) :=
  inferInstanceAs (Decidable (_ ∈ _))

/-- The characters of `%}` on a walk. -/
theorem charsFrom_percentBrace (hlast : last < source.size)
    (hpercent : source.byteAt last = Ascii.percent)
    (hcloser : source.byteAt (last + 1) = Ascii.braceClose) :
    source.charsFrom last = percentBrace (source.charsFrom (last + 2)) := by
  have hlt : last + 1 < source.size := lt_size_of_byteAt_eq hcloser (by decide)
  rw [charsFrom_of_lt hlast, next_eq_succ_of_isAscii hlast (by rw [hpercent]; rfl),
    charsFrom_of_lt hlt, next_eq_succ_of_isAscii hlt (by rw [hcloser]; rfl), hpercent, hcloser]

end Source

theorem Source.rest_readerAt {source : Source} {start : Nat} (hstart : start ≤ source.size) :
    rest (source.readerAt start) = source.charsFrom start :=
  congrArg source.charsFrom (Nat.min_eq_left hstart)

theorem TokenAt.rest_eq {source : Source} {start : Nat} {reader : ByteReader}
    (htoken : TokenAt source start reader) : rest reader = source.charsFrom reader.offset := by
  rw [← htoken.source_eq]
  rfl

section Code

variable {source : Source} {start last : Nat} {context : Context}

/-- Code that is found complete starts inside of the text, and so does its token. -/
theorem tokenAt_readCode (hmatched : (readCode (source.readerAt start) context).matched = true) :
    start < source.size ∧
      TokenAt source start (readCode (source.readerAt start) context).reader := by
  have hstart : start < source.size := by
    by_contra hend
    have hatEnd : atEnd (source.readerAt start) = true :=
      ByteReader.atEnd_iff.mpr (Nat.le_min.mpr ⟨Nat.not_lt.mp hend, Nat.le_refl _⟩)
    rw [readCode, run_enter_of_atEnd .code context hatEnd] at hmatched
    cases hmatched
  have hreader : TokenAt source start (source.readerAt start) := by
    rw [Source.readerAt_of_le hstart.le]
    exact tokenAt_uncommitted source start none
  exact ⟨hstart, run_holds (TokenAt source start) (fun _ ↦ TokenAt.advance_tokenAt)
    (fun _ ↦ TokenAt.seek_tokenAt) (fun _ ↦ TokenAt.commit_tokenAt) hreader.commit_tokenAt⟩

/-- Assumes: code that is found complete and ends with `%}`. The percent sign is a unit of the
outermost block. -/
theorem percent_mem_places (hmatched : (readCode (source.readerAt start) context).matched = true)
    (hlast : (readCode (source.readerAt start) context).reader.offset = last + 2)
    (hle : start ≤ last) (hpercent : source.byteAt last = Ascii.percent)
    (hcloser : source.byteAt (last + 1) = Ascii.braceClose) :
    (1, percentBrace (source.charsFrom (last + 2))) ∈
      codeCounter.places 1 (source.charsFrom start) := by
  obtain ⟨hstart, htoken⟩ := tokenAt_readCode hmatched
  have hlt : last < source.size := Source.lt_size_of_byteAt_eq hpercent (by decide)
  have hleft : rest (readCode (source.readerAt start) context).reader =
      source.charsFrom (last + 2) := by
    rw [htoken.rest_eq, hlast]
  have hverdict := Enclosure.verdict_run_enter .code (source.readerAt start) context
  rw [Source.rest_readerAt hstart.le] at hverdict
  refine mem_places_of_percent (hverdict.symm.trans (Prod.ext hmatched hleft)) ?_
  change percentBrace (source.charsFrom (last + 2)) <:+ _
  rw [← Source.charsFrom_percentBrace hlt hpercent hcloser]
  exact Source.charsFrom_suffix hle hlt (by rw [hpercent]; rfl)

/-- From the start of the code: a percent sign is held back exactly if it is a unit of the outermost
block and does not come right after a probe. -/
theorem holdsPercent_enter_iff (hstart : start ≤ source.size) :
    HoldsPercent (Nesting.enter .code [] (source.readerAt start) context)
        (source.charsFrom last) ↔
      (1, percentBrace (source.charsFrom last)) ∈ codeCounter.places 1 (source.charsFrom start) ∧
        ¬ source.EndsProbed start last := by
  have hremaining : (Nesting.enter .code [] (source.readerAt start) context).remaining =
      source.charsFrom start := by
    rw [Nesting.remaining_enter, Source.rest_readerAt hstart]
  constructor
  · rintro ⟨hunit, -, hnot⟩
    rw [hremaining] at hunit hnot
    exact ⟨hunit, hnot⟩
  · rintro ⟨hunit, hnot⟩
    rw [← hremaining] at hunit
    rw [Source.EndsProbed, ← hremaining] at hnot
    exact ⟨hunit, nofun, hnot⟩

/-- Assumes: embedded code that is found complete, from any offset of a text that fits and in any
context. Every character could be passed. The reader stands behind the brace that closes the code,
and the token ends in front of that brace, or in front of the percent sign before it if there is one
inside of the code. Only a percent sign that a probe has handed back stays in the token. -/
theorem code_token_end {source : Source} (hfits : source.Fits) (start : Nat) (context : Context)
    (hmatched : (readCode (source.readerAt start) context).matched = true) :
    let stopped := (readCode (source.readerAt start) context).reader
    let stop := stopped.offset
    stopped.overflow = none ∧ start < stop ∧ source.byteAt (stop - 1) = Ascii.braceClose ∧
      stopped.committed = some
        (if start + 2 ≤ stop ∧ source.byteAt (stop - 2) = Ascii.percent ∧
            ¬ source.EndsProbed start stop then stop - 2
        else stop - 1) := by
  intro stopped stop
  obtain ⟨hstart, htoken⟩ := tokenAt_readCode hmatched
  obtain ⟨hpos, hcloser⟩ : 0 < stop ∧ stopped.source.byteAt (stop - 1) = Ascii.braceClose :=
    (committed_run_enter rfl hmatched).closer_passed
  have hentered : CommittedAfterUnit none (Enclosure.mark .code (source.readerAt start)) :=
    committedAfterUnit_mark _ nofun
  have hends : EndsCommitted (HoldsPercent _ (rest stopped)) stopped :=
    endsCommitted_run rfl rfl hentered hmatched
  rw [EndsCommitted, htoken.rest_eq, holdsPercent_enter_iff hstart.le, htoken.source_eq] at hends
  rw [htoken.source_eq] at hcloser
  have hfree : stopped.Unhindered :=
    run_holds ByteReader.Unhindered (fun _ hhere ↦ hhere.advance_unhindered)
      (fun _ hhere ↦ hhere.seek_unhindered) (fun _ hhere ↦ ⟨hhere.fits, hhere.overflow_eq⟩)
      ⟨hfits, rfl⟩
  have hle : ∀ {last : Nat}, stopped.committed = some last → start ≤ last := by
    intro last hcommitted
    rw [← htoken.tokenStart_eq]
    exact htoken.start_le_committed last hcommitted
  rcases hends with ⟨hheld, hlong, hcommitted, hpercent⟩ | ⟨hnot, hcommitted⟩
  · have hinside := hle hcommitted
    refine ⟨hfree.overflow_eq, by omega, hcloser, ?_⟩
    rw [if_pos ⟨by omega, hpercent, hheld.2⟩]
    exact hcommitted
  · have hinside := hle hcommitted
    have hother : ¬ (start + 2 ≤ stop ∧ source.byteAt (stop - 2) = Ascii.percent ∧
        ¬ source.EndsProbed start stop) := by
      rintro ⟨hlong, hpercent, hprobed⟩
      obtain ⟨last, hlast⟩ : ∃ last, stop = last + 2 := ⟨stop - 2, by omega⟩
      rw [hlast] at hpercent hcloser
      have hunit := percent_mem_places hmatched hlast (by omega) hpercent hcloser
      rw [← hlast] at hunit
      exact hnot ⟨hunit, hprobed⟩
    refine ⟨hfree.overflow_eq, by omega, hcloser, ?_⟩
    rw [if_neg hother]
    exact hcommitted

/-- A word that ends with an apostrophe in front of `%}`. -/
theorem code_token_end_witness :
    let source : Source := ⟨"é a'%\x7d x"⟩
    let code := readCode (source.readerAt 2) .initial
    source.Fits ∧ code.matched = true ∧ code.reader.offset = 7 ∧
      code.reader.committed = some 5 := by
  intro source code
  have hfits : source.Fits := by decide +kernel
  have hmatched : code.matched = true := by decide +kernel
  have hoffset : code.reader.offset = 7 := by decide +kernel
  obtain ⟨-, -, -, hcommitted⟩ := code_token_end hfits 2 .initial hmatched
  refine ⟨hfits, hmatched, hoffset, hcommitted.trans ?_⟩
  change some (if _ ∧ source.byteAt (code.reader.offset - 2) = _ ∧
    ¬ source.EndsProbed 2 code.reader.offset then code.reader.offset - 2 else _) = _
  rw [hoffset, if_pos (by decide +kernel)]

/-- The percent sign of a `%}` that stays in the token, since it comes right after an apostrophe
that starts no character literal. -/
theorem code_token_keeps_percent :
    let source : Source := ⟨"'%\x7d"⟩
    let code := readCode (source.readerAt 0) .initial
    code.matched = true ∧ code.reader.offset = 3 ∧ source.byteAt 2 = Ascii.braceClose ∧
      source.byteAt 1 = Ascii.percent ∧ code.reader.committed = some 2 := by
  decide +kernel

end Code

end GrammarFragments
