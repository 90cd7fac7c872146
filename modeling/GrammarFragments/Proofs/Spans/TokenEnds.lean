import Mathlib.Tactic.SplitIfs
import GrammarFragments.Proofs.Nesting.Depth
import GrammarFragments.Proofs.Spans.Boundaries

/-!
Where the token of embedded code or of a payload ends. The outermost group of a run commits the end
of the token after every unit, but not behind its closer; groups inside of it have no say, because
the outermost one commits anew when it goes on after them. So a run may be followed at its outermost
group alone, with every group inside of it as one unit (`post_run_of_keptOutermost`).

What the outermost group keeps between two units is that the end is committed right here, with two
exceptions: a probe has passed the closer and handed it back, or a percent sign has been passed that
stands in front of the closer (`CommittedNearby`). When the closer has been taken, the end is in
front of it, or in front of the percent sign (`committed_run_enter`).
-/

set_option autoImplicit false
set_option relaxedAutoImplicit false

namespace GrammarFragments

open Reader

namespace Nesting

variable {ρ : Type} [SeekReader ρ]

/-- What holds between two units of an outermost group: a property of the character handed back and
the reader. It holds when the group goes on after a group inside of it, every unit keeps it, and
when the group closes the reader has the property `post`. -/
structure KeptOutermost (group : Enclosure) (kept : Option UInt8 → ρ → Prop) (post : ρ → Prop) :
    Prop where
  enter_kept : ∀ reader, kept none (group.mark reader)
  unit_kept : ∀ {nesting : Nesting ρ} {byte : UInt8} {pending : Option UInt8} {reader : ρ}
    {context : Context}, kept nesting.pending nesting.reader → nesting.next? = some byte →
    group.turn byte nesting.takeNext nesting.context = .unit pending reader context →
    kept pending (afterUnit group pending reader)
  hold_kept : ∀ {nesting : Nesting ρ} {byte : UInt8} {reader : ρ} {context : Context},
    kept nesting.pending nesting.reader → nesting.next? = some byte →
    group.turn byte nesting.takeNext nesting.context = .hold reader context →
    kept none reader
  close_post : ∀ {nesting : Nesting ρ} {byte : UInt8} {reader : ρ} {context : Context},
    kept nesting.pending nesting.reader → nesting.next? = some byte →
    group.turn byte nesting.takeNext nesting.context = .close reader context →
    post reader

/-- Assumes: a run that finds the end of its outermost group. What the group keeps between two units
leads to the property of the reader when it closes. -/
theorem post_run_of_keptOutermost {group : Enclosure} {kept : Option UInt8 → ρ → Prop}
    {post : ρ → Prop} (hkept : KeptOutermost group kept post) {nesting : Nesting ρ}
    (hgroup : nesting.group = group) (houter : nesting.outer = [])
    (hhere : kept nesting.pending nesting.reader) (hmatched : nesting.run.matched = true) :
    post nesting.run.reader := by
  -- A whole group may lie between two configurations, so the induction is on the weight.
  induction hweight : nesting.weight using Nat.strongRecOn generalizing nesting with
  | ind weight ih =>
    subst hweight
    cases hnext : nesting.next? with
    | none =>
      rw [run_of_step_eq_done (step_of_next?_eq_none hnext)] at hmatched
      cases hmatched
    | some byte =>
      have hlt := two_mul_length_rest_turn_lt hnext
      cases hturn : nesting.group.turn byte nesting.takeNext nesting.context with
      | close reader context =>
        have hrun := run_of_step_eq_leave (step_of_turn_eq_close hnext hturn)
        rw [houter] at hrun
        rw [hrun]
        exact hkept.close_post hhere hnext (hgroup ▸ hturn)
      | nest inner reader context =>
        rw [run_of_step_eq_more (step_of_turn_eq_nest hnext hturn), houter] at hmatched ⊢
        have hinner := run_enter_of_matched hmatched
        rw [hinner.2] at hmatched ⊢
        rw [hturn] at hlt
        have hsuffix := (rest_run_enter_suffix inner [] reader context).length_le
        refine ih _ ?_ hgroup rfl (hgroup ▸ hkept.enter_kept _) hmatched rfl
        rw [weight_enter]
        exact Nat.lt_of_le_of_lt (Nat.mul_le_mul_left 2 hsuffix) hlt
      | hold reader context =>
        have hstep := step_of_turn_eq_hold hnext hturn
        rw [run_of_step_eq_more hstep] at hmatched ⊢
        exact ih _ (weight_lt_of_step_eq_more hstep) hgroup houter
          (hkept.hold_kept hhere hnext (hgroup ▸ hturn)) hmatched rfl
      | unit pending reader context =>
        have hstep := step_of_turn_eq_unit hnext hturn
        rw [run_of_step_eq_more hstep] at hmatched ⊢
        refine ih _ (weight_lt_of_step_eq_more hstep) hgroup houter ?_ hmatched rfl
        rw [hgroup] at hturn ⊢
        exact hkept.unit_kept hhere hnext hturn

end Nesting

/-! ### What a turn can be -/

namespace Enclosure

variable {ρ : Type} [SeekReader ρ] {group : Enclosure} {byte : UInt8} {reader stopped : ρ}
  {context after : Context}

/-- The turns that are the same in every group pass a unit or open a comment. -/
theorem commonTurn_nest_or_unit (group : Enclosure) (byte : UInt8) (reader : ρ)
    (context : Context) :
    (∃ stopped after, group.commonTurn byte reader context = .nest .comment stopped after) ∨
      ∃ pending stopped after, group.commonTurn byte reader context =
        .unit pending stopped after := by
  unfold commonTurn
  split_ifs with hparen hstar hquote hstring hword
  · exact .inl ⟨_, _, rfl⟩
  · exact .inr ⟨_, _, _, rfl⟩
  · exact .inr ⟨_, _, _, rfl⟩
  · exact .inr ⟨_, _, _, rfl⟩
  · exact .inr ⟨_, _, _, rfl⟩
  · exact .inr ⟨_, _, _, rfl⟩

theorem commonTurn_ne_close : group.commonTurn byte reader context ≠ .close stopped after := by
  intro hturn
  rcases group.commonTurn_nest_or_unit byte reader context with ⟨_, _, hnest⟩ | ⟨_, _, _, hunit⟩
  · rw [hturn] at hnest
    cases hnest
  · rw [hturn] at hunit
    cases hunit

theorem commonTurn_ne_hold : group.commonTurn byte reader context ≠ .hold stopped after := by
  intro hturn
  rcases group.commonTurn_nest_or_unit byte reader context with ⟨_, _, hnest⟩ | ⟨_, _, _, hunit⟩
  · rw [hturn] at hnest
    cases hnest
  · rw [hturn] at hunit
    cases hunit

/-- A group that commits is closed by its closer and by nothing else. -/
theorem eq_closer_of_turn_eq_close (hcommits : group.commits = true)
    (hturn : group.turn byte reader context = .close stopped after) :
    byte = group.closer ∧ stopped = reader := by
  cases group with
  | comment => cases hcommits
  | code =>
    simp only [turn, codeTurn] at hturn
    split_ifs at hturn with hclose hbrace hquoted hpercent
    · cases hturn
      exact ⟨hclose, rfl⟩
    · exact absurd hturn commonTurn_ne_close
  | bracket =>
    simp only [turn, bracketTurn] at hturn
    split_ifs at hturn with hclose hopen
    · cases hturn
      exact ⟨hclose, rfl⟩
    · exact absurd hturn commonTurn_ne_close

/-- The end of the token is held back in code only, by a percent sign in front of the closer. -/
theorem eq_percent_of_turn_eq_hold (hturn : group.turn byte reader context = .hold stopped after) :
    group = .code ∧ byte = Ascii.percent ∧ current reader = Ascii.braceClose ∧
      stopped = reader := by
  cases group with
  | comment =>
    simp only [turn, commentTurn] at hturn
    split_ifs at hturn with hclose hbrace
    exact absurd hturn commonTurn_ne_hold
  | code =>
    simp only [turn, codeTurn] at hturn
    split_ifs at hturn with hclose hbrace hquoted hpercent
    · cases hturn
      exact ⟨rfl, hpercent.1, hpercent.2, rfl⟩
    · exact absurd hturn commonTurn_ne_hold
  | bracket =>
    simp only [turn, bracketTurn] at hturn
    split_ifs at hturn with hclose hopen
    exact absurd hturn commonTurn_ne_hold

theorem commonTurn_hands_back {handed : UInt8}
    (hturn : group.commonTurn byte reader context = .unit (some handed) stopped after) :
    handed = current reader ∧ stopped = advance (group.mark reader) := by
  have hcurrent := group.current_mark reader
  simp only [commonTurn] at hturn
  split_ifs at hturn with hparen hstar hquote hstring hword
  · cases hturn
  · rw [Turn.unit.injEq] at hturn
    obtain ⟨hpending, rfl, -⟩ := hturn
    cases hstarts : startsNoLiteral (rest (group.mark reader)) with
    | false =>
      rw [pending_probe_eq_none hstarts] at hpending
      cases hpending
    | true =>
      rw [probe_of_startsNoLiteral hstarts] at hpending ⊢
      rw [hcurrent] at hpending
      exact ⟨(Option.some.inj hpending).symm, rfl⟩
  · cases hturn
  · cases hturn
  · cases hturn

/-- A character that is handed back is the one after an apostrophe, behind which the end of the
token has been committed if the group does so. -/
theorem turn_hands_back {handed : UInt8}
    (hturn : group.turn byte reader context = .unit (some handed) stopped after) :
    handed = current reader ∧ stopped = advance (group.mark reader) := by
  cases group with
  | comment =>
    simp only [turn, commentTurn] at hturn
    split_ifs at hturn with hclose hbrace
    · cases hturn
    · exact commonTurn_hands_back hturn
  | code =>
    simp only [turn, codeTurn] at hturn
    split_ifs at hturn with hclose hbrace hquoted hpercent
    · cases hturn
    · exact commonTurn_hands_back hturn
  | bracket =>
    simp only [turn, bracketTurn] at hturn
    split_ifs at hturn with hclose hopen
    exact commonTurn_hands_back hturn

end Enclosure

/-! ### The end of the token -/

/-- Where the end of the token is committed between two units of an outermost group: here; or in
front of the closer, which a probe has passed and handed back; or in front of a percent sign with
the closer after it. -/
inductive CommittedNearby (group : Enclosure) (pending : Option UInt8) (reader : ByteReader) : Prop
  | here (hpending : pending ≠ some group.closer)
    (hcommitted : reader.committed = some reader.offset)
  | beforeCloser {stop : Nat} (hpending : pending = some group.closer)
    (hcommitted : reader.committed = some stop) (hoffset : reader.offset = stop + 1)
    (hcloser : reader.source.byteAt stop = group.closer)
  | beforePercent {stop : Nat} (hcode : group = .code) (hpending : pending = none)
    (hcommitted : reader.committed = some stop) (hoffset : reader.offset = stop + 1)
    (hpercent : reader.source.byteAt stop = Ascii.percent)
    (hcloser : current reader = Ascii.braceClose)

/-- The closer has been passed, and the end of the token is committed in front of it, or, in code,
in front of a percent sign that comes right before it. -/
structure CommittedBeforeCloser (group : Enclosure) (reader : ByteReader) : Prop where
  closer_passed : 0 < reader.offset ∧ reader.source.byteAt (reader.offset - 1) = group.closer
  committed_cases : reader.committed = some (reader.offset - 1) ∨
    (group = .code ∧ 1 < reader.offset ∧ reader.committed = some (reader.offset - 2) ∧
      reader.source.byteAt (reader.offset - 2) = Ascii.percent)

/-- The next character is the one handed back, or else the current one, which is then passed. -/
theorem Nesting.next?_cases {ρ : Type} [Reader ρ] {nesting : Nesting ρ} {byte : UInt8}
    (hnext : nesting.next? = some byte) :
    (nesting.pending = some byte ∧ nesting.takeNext = nesting.reader) ∨
      (nesting.pending = none ∧ current nesting.reader = byte ∧
        nesting.takeNext = advance nesting.reader) := by
  unfold Nesting.next? at hnext
  unfold Nesting.takeNext
  cases hpending : nesting.pending with
  | some handed =>
    rw [hpending] at hnext
    exact .inl ⟨hnext, rfl⟩
  | none =>
    rw [hpending] at hnext
    split_ifs at hnext with hend
    exact .inr ⟨rfl, Option.some.inj hnext, rfl⟩

/-- The outermost group of a run keeps the end of the token nearby, if it commits at all. -/
theorem keptOutermost_committedNearby {group : Enclosure} (hcommits : group.commits = true) :
    Nesting.KeptOutermost group (CommittedNearby group) (CommittedBeforeCloser group) where
  enter_kept reader := by
    rw [Enclosure.mark, if_pos hcommits]
    exact .here (Option.some_ne_none _).symm rfl
  unit_kept := by
    intro nesting byte pending reader context hkept hnext hturn
    unfold Nesting.afterUnit
    split_ifs with hpending
    · subst hpending
      obtain ⟨hcloser, rfl⟩ := Enclosure.turn_hands_back hturn
      rw [Enclosure.mark, if_pos hcommits]
      exact .beforeCloser rfl rfl
        (ByteReader.offset_advance hcloser.symm group.isAscii_closer group.closer_ne_zero)
        hcloser.symm
    · rw [Enclosure.mark, if_pos hcommits]
      exact .here hpending rfl
  hold_kept := by
    intro nesting byte reader context hkept hnext hturn
    obtain ⟨rfl, rfl, hcloser, rfl⟩ := Enclosure.eq_percent_of_turn_eq_hold hturn
    rcases Nesting.next?_cases hnext with ⟨hpending, htake⟩ | ⟨hpending, hcurrent, htake⟩
    · rw [htake]
      cases hkept with
      | here hother hcommitted => exact .here (Option.some_ne_none _).symm hcommitted
      | beforeCloser hother => exact absurd (hpending.symm.trans hother) (by decide)
      | beforePercent hcode hother =>
        exact absurd (hpending.symm.trans hother) (Option.some_ne_none _)
    · rw [htake] at hcloser ⊢
      cases hkept with
      | here hother hcommitted =>
        exact .beforePercent rfl rfl hcommitted
          (ByteReader.offset_advance hcurrent rfl (by decide)) hcurrent hcloser
      | beforeCloser hother =>
        exact absurd (hpending.symm.trans hother) (Option.some_ne_none _).symm
      | beforePercent hcode hother hcommitted hoffset hpercent hnextCloser =>
        exact absurd (hcurrent.symm.trans hnextCloser) (by decide)
  close_post := by
    intro nesting byte reader context hkept hnext hturn
    obtain ⟨rfl, rfl⟩ := Enclosure.eq_closer_of_turn_eq_close hcommits hturn
    rcases Nesting.next?_cases hnext with ⟨hpending, htake⟩ | ⟨hpending, hcurrent, htake⟩
    · rw [htake]
      cases hkept with
      | here hother => exact absurd hpending hother
      | beforeCloser hother hcommitted hoffset hcloser =>
        have hstop := Nat.sub_eq_of_eq_add hoffset
        exact ⟨⟨hoffset ▸ Nat.succ_pos _, hstop.symm ▸ hcloser⟩, .inl (hstop.symm ▸ hcommitted)⟩
      | beforePercent hcode hother =>
        exact absurd (hpending.symm.trans hother) (Option.some_ne_none _)
    · have hoffset : nesting.takeNext.offset = nesting.reader.offset + 1 := by
        rw [htake]
        exact ByteReader.offset_advance hcurrent group.isAscii_closer group.closer_ne_zero
      have hlast := Nat.sub_eq_of_eq_add hoffset
      have hcloser : nesting.takeNext.source.byteAt (nesting.takeNext.offset - 1) =
          group.closer := by
        rw [hlast, htake]
        exact hcurrent
      refine ⟨⟨hoffset ▸ Nat.succ_pos _, hcloser⟩, ?_⟩
      rw [hlast, htake]
      cases hkept with
      | here hother hcommitted => exact .inl hcommitted
      | beforeCloser hother =>
        exact absurd (hpending.symm.trans hother) (Option.some_ne_none _).symm
      | beforePercent hcode hother hcommitted hstop hpercent hnextCloser =>
        rw [htake] at hoffset
        have hsecond : (advance nesting.reader).offset - 2 = _ :=
          Nat.sub_eq_of_eq_add (hoffset.trans (congrArg (· + 1) hstop))
        exact .inr ⟨hcode, by omega, hsecond.symm ▸ hcommitted, hsecond.symm ▸ hpercent⟩

/-- Assumes: a group that commits and is found complete. Its closer has been passed, and the end of
the token is committed in front of it, or in front of the percent sign before it. -/
theorem committed_run_enter {group : Enclosure} (hcommits : group.commits = true)
    {reader : ByteReader} {context : Context}
    (hmatched : (Nesting.enter group [] reader context).run.matched = true) :
    CommittedBeforeCloser group (Nesting.enter group [] reader context).run.reader := by
  have hkept := keptOutermost_committedNearby hcommits
  exact Nesting.post_run_of_keptOutermost hkept rfl rfl (hkept.enter_kept reader) hmatched

end GrammarFragments
