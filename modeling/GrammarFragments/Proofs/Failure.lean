import Mathlib.Logic.Relation
import GrammarFragments.Proofs.Attempts
import GrammarFragments.Proofs.Nesting.Depth

/-!
What a scan that finds nothing has done. Either no recognizer applied, and then the scan has passed
the blanks and no more than a parenthesis after them; or one was tried, and then the text has been
read to its end. A recognizer never gives up in the middle of a text: one that does not find the end
of its construct goes on until there is nothing left.

The recognizers pass lexemes and groups inside of their construct without asking whether these are
complete. They need not ask, because a construct without an end leaves nothing to be read
(`matched_run_of_opensUnterminated`): the run that meets it, after any number of steps, can only end
with the text.

Main statement: `failed_scan_shapes`.
-/

set_option autoImplicit false
set_option relaxedAutoImplicit false

namespace GrammarFragments

open Reader

variable {ρ : Type} [SeekReader ρ]

/-! ### What is left of the context -/

/-- The context differs from an earlier one at most by a forgotten tag. -/
structure Context.Recalls (context earlier : Context) : Prop where
  inString_eq : context.inString = earlier.inString
  tag_cases : context.tag = earlier.tag ∨ context.tag = []

/-- No recognizer does more to a context than to forget its tag. -/
theorem recalls_simulation (earlier : Context) :
    Simulation (fun reader other : ρ ↦ reader = other ∧ True)
      (fun context other ↦ context = other ∧ context.Recalls earlier) :=
  Simulation.ofInvariant (fun _ ↦ True) (·.Recalls earlier) (fun _ _ ↦ trivial)
    (fun _ _ ↦ trivial) (fun _ _ ↦ trivial) fun _ hrecalls ↦ ⟨hrecalls.inString_eq, .inr rfl⟩

theorem recognizers_recall (reader : ρ) (context : Context) :
    (readComment reader context).context.Recalls context ∧
      (readCode reader context).context.Recalls context ∧
      (readType reader context).context.Recalls context ∧
      (readPayload reader context).context.Recalls context := by
  have hsim := recalls_simulation (ρ := ρ) context
  have hreader : reader = reader ∧ True := ⟨rfl, trivial⟩
  have hcontext : context = context ∧ context.Recalls context := ⟨rfl, rfl, .inl rfl⟩
  exact ⟨(hsim.readComment_related hreader hcontext).context_akin.2,
    (hsim.readCode_related hreader hcontext).context_akin.2,
    (hsim.readType_related hreader hcontext).context_akin.2,
    (hsim.readPayload_related hreader hcontext).context_akin.2⟩

/-! ### Recognizers that fail -/

/-- A group that is not closed has been read to the end of the text. -/
theorem Nesting.atEnd_run {nesting : Nesting ρ} (hmatched : nesting.run.matched = false) :
    atEnd nesting.run.reader = true :=
  atEnd_of_rest_eq_nil (rest_run_eq_nil hmatched)

/-- A type without the character that ends it has been read to the end of the text. -/
theorem atEnd_readType {reader : ρ} {context : Context}
    (hmatched : (readType reader context).matched = false) :
    atEnd (readType reader context).reader = true := by
  fun_induction readType reader context with
  | case1 reader context hend => exact hend
  | case2 reader context hend hgreater => exact absurd hmatched.symm Bool.false_ne_true
  | case3 reader context hend hgreater passed ih => exact ih hmatched

/-! ### Scans that find nothing -/

/-- The shape of a scan for which no recognizer applied: it has passed the blanks, and after them it
may have passed a parenthesis. Nothing was committed, and the context is the one from before. -/
structure Scan.Idle (requested : Request) (reader : ρ) (context : Context) (found : Scan ρ) :
    Prop where
  event_eq : found.event = .noneApplies requested
  reader_entered : Attempt.Entered (skipWhile isBlank reader) found.reader
  context_eq : found.context = context

/-- The shape of a scan whose recognizer failed: the text has been read to its end, and the context
has lost its tag at most. -/
structure Scan.Exhausted (requested : Request) (context : Context) (found : Scan ρ) : Prop where
  event_eq : ∃ kind, requested.permits kind = true ∧
    found.event = .tried requested kind false context.inString
  reader_atEnd : atEnd found.reader = true
  context_recalls : found.context.Recalls context

omit [SeekReader ρ] in
/-- An attempt that finds nothing has tried nothing, or its recognizer did not match. -/
theorem Attempt.matched_eq_false {kind : FragmentKind} {outcome : Outcome ρ}
    (hnone : (Attempt.ofOutcome kind outcome).kind? = none) : outcome.matched = false := by
  rw [← Attempt.isSome_kind?_ofOutcome kind outcome, hnone, Option.isSome_none]

/-- Assumes: a recognizer that was asked for and does not match, which leaves no text and does no
more to the context than to forget its tag. The scan has the second shape. -/
theorem exhausted_ofOutcome {requested : Request} {context : Context} {kind : FragmentKind}
    {outcome : Outcome ρ} (hpermits : requested.permits kind = true)
    (hmatched : outcome.matched = false) (hend : atEnd outcome.reader = true)
    (hrecalls : outcome.context.Recalls context) :
    let attempt := Attempt.ofOutcome kind outcome
    Scan.Exhausted requested context
      ⟨attempt.kind?, attempt.event requested, attempt.reader, attempt.context⟩ := by
  intro attempt
  refine ⟨⟨kind, hpermits, ?_⟩, hend, hrecalls⟩
  simp only [attempt, Attempt.event, Attempt.ofOutcome, hmatched, hrecalls.inString_eq]

/-- A scan that finds nothing has one of the two shapes. -/
theorem idle_or_exhausted {requested : Request} {reader : ρ} {context : Context}
    (hnone : (scan requested reader context).kind = none) :
    (scan requested reader context).Idle requested reader context ∨
      (scan requested reader context).Exhausted requested context := by
  have htried := Attempt.start_tried requested (skipWhile isBlank reader) context
  simp only [scan] at hnone ⊢
  generalize Attempt.start requested (skipWhile isBlank reader) context = attempt
    at hnone htried ⊢
  cases htried with
  | comment houtside hpermits hparen hstar =>
    have hmatched := Attempt.matched_eq_false hnone
    have hrest : rest (readComment (advance (skipWhile isBlank reader)) context).reader = [] := by
      simp only [readComment, if_pos hstar] at hmatched ⊢
      exact Nesting.rest_run_eq_nil hmatched
    exact .inr (exhausted_ofOutcome hpermits hmatched
      (atEnd_of_rest_eq_nil ((Attempt.rest_ofComment _ context).trans hrest))
      (recognizers_recall _ context).1)
  | code hentered hpermits =>
    have hmatched := Attempt.matched_eq_false hnone
    exact .inr (exhausted_ofOutcome hpermits hmatched (Nesting.atEnd_run hmatched)
      (recognizers_recall _ context).2.1)
  | typeExpr hentered hpermits =>
    have hmatched := Attempt.matched_eq_false hnone
    exact .inr (exhausted_ofOutcome hpermits hmatched (atEnd_readType hmatched)
      (recognizers_recall _ context).2.2.1)
  | payload hentered hpermits =>
    have hmatched := Attempt.matched_eq_false hnone
    exact .inr (exhausted_ofOutcome hpermits hmatched (Nesting.atEnd_run hmatched)
      (recognizers_recall _ context).2.2.2)
  | quoteMark hpermits hquote => cases hnone
  | nothing hentered => exact .inl ⟨rfl, hentered, rfl⟩

/-! ### Constructs without an end -/

namespace StringLiteral

/-- A string literal whose opening quote stands in front of the characters has a closing quote among
them. -/
inductive Closes : List UInt8 → Prop
  | quote (chars : List UInt8) : Closes (Ascii.doubleQuote :: chars)
  | plain {byte : UInt8} {chars : List UInt8} (hbyte : isStringStop byte = false)
    (hcloses : Closes chars) : Closes (byte :: chars)
  | escaped (byte : UInt8) {chars : List UInt8} (hcloses : Closes chars) :
    Closes (Ascii.backslash :: byte :: chars)

theorem Closes.of_dropWhile {chars : List UInt8}
    (hcloses : Closes (chars.dropWhile fun byte ↦ !isStringStop byte)) : Closes chars := by
  induction chars with
  | nil => exact hcloses
  | cons byte chars ih =>
    by_cases hstop : isStringStop byte = true
    · rw [List.dropWhile_cons_of_neg (by simpa using hstop)] at hcloses
      exact hcloses
    · rw [List.dropWhile_cons_of_pos (by simpa using hstop)] at hcloses
      exact .plain (by simpa using hstop) (ih hcloses)

/-- A string literal that is not closed reaches to the end of the text. -/
theorem rest_finish_eq_nil {reader : ρ} (hopen : ¬ Closes (rest reader)) :
    rest (finish reader) = [] := by
  fun_induction finish reader with
  | case1 reader stop hend => exact rest_eq_nil hend
  | case2 reader stop hend hescape ih =>
    refine ih fun hcloses ↦ hopen (Closes.of_dropWhile ?_)
    rw [← SeekReader.rest_seek, rest_eq_cons (by simpa using hend)]
    change Closes (current stop :: (rest stop).tail)
    rw [hescape]
    rw [rest_advance, rest_advance] at hcloses
    cases htail : (rest stop).tail with
    | nil =>
      rw [htail] at hcloses
      cases hcloses
    | cons byte chars =>
      rw [htail] at hcloses
      exact .escaped byte hcloses
  | case3 reader stop hend hescape hquote =>
    refine absurd (Closes.of_dropWhile ?_) hopen
    rw [← SeekReader.rest_seek, rest_eq_cons (by simpa using hend)]
    change Closes (current stop :: (rest stop).tail)
    rw [hquote]
    exact .quote _
  | case4 reader stop hend hescape hquote =>
    have hstop : isStringStop (current stop) = true :=
      isStringStop_current_seek (by simpa using hend)
    simp only [isStringStop, Bool.or_eq_true, beq_iff_eq] at hstop
    exact absurd hstop (not_or.mpr ⟨hquote, hescape⟩)

end StringLiteral

namespace Nesting

/-- The next character opens a construct inside of the innermost group that is never closed: a
comment, a string literal, a quoted text where the group has such, a block in a block, or a bracket
group in a bracket group. A comment, a block or a bracket group is never closed if its recognizer
fails from there. -/
inductive OpensUnterminated (nesting : Nesting ρ) : Prop
  | comment (hnext : nesting.next? = some Ascii.parenOpen)
    (hstar : current nesting.takeNext = Ascii.star)
    (hfails : (readComment nesting.takeNext nesting.context).matched = false)
  | string (hnext : nesting.next? = some Ascii.doubleQuote)
    (hopen : ¬ StringLiteral.Closes (rest nesting.takeNext))
  | quotedText (hgroup : nesting.group ≠ .bracket) (hnext : nesting.next? = some Ascii.braceOpen)
    (hopened : (QuotedText.readOpening nesting.takeNext nesting.context).matched = true)
    (hfails : (QuotedText.read nesting.takeNext nesting.context).matched = false)
  | block (hgroup : nesting.group = .code) (hnext : nesting.next? = some Ascii.braceOpen)
    (hplain : (QuotedText.readOpening nesting.takeNext nesting.context).matched = false)
    (hfails : (readCode (QuotedText.readOpening nesting.takeNext nesting.context).reader
      nesting.context.clearTag).matched = false)
  | bracket (hgroup : nesting.group = .bracket) (hnext : nesting.next? = some Ascii.bracketOpen)
    (hfails : (readPayload nesting.takeNext nesting.context).matched = false)

variable {nesting : Nesting ρ} {byte : UInt8} {reader : ρ} {context : Context}

/-- A group that is never closed takes the groups around it with it. -/
theorem matched_run_of_nest {inner : Enclosure} (hnext : nesting.next? = some byte)
    (hturn : nesting.group.turn byte nesting.takeNext nesting.context = .nest inner reader context)
    (hfails : (enter inner [] reader context).run.matched = false) :
    nesting.run.matched = false := by
  have hwithin := run_within (enter inner [] reader context) (nesting.group :: nesting.outer)
  change (enter inner (nesting.group :: nesting.outer) reader context).run = _ at hwithin
  rw [run_of_step_eq_more (step_of_turn_eq_nest hnext hturn), hwithin, resume,
    if_neg (by rw [hfails]; exact Bool.false_ne_true)]
  exact hfails

/-- A unit that leaves no text is the last one of the run. -/
theorem matched_run_of_last_unit (hnext : nesting.next? = some byte)
    (hturn : nesting.group.turn byte nesting.takeNext nesting.context = .unit none reader context)
    (hrest : rest reader = []) : nesting.run.matched = false := by
  rw [run_of_step_eq_more (step_of_turn_eq_unit hnext hturn)]
  refine (Outcome.verdict_eq_iff.mp (verdict_run_of_remaining_eq_nil ?_)).1
  exact (rest_afterUnit nesting.group none reader).trans hrest

/-- In every group a double quote starts a string literal. -/
theorem turn_doubleQuote (group : Enclosure) (reader : ρ) (context : Context) :
    group.turn Ascii.doubleQuote reader context =
      .unit none (StringLiteral.finish reader) context := by
  cases group with
  | comment => rfl
  | code => rfl
  | bracket => rfl

/-- In every group a parenthesis in front of a star opens a comment. -/
theorem turn_parenOpen (group : Enclosure) {reader : ρ} (context : Context)
    (hstar : current reader = Ascii.star) :
    group.turn Ascii.parenOpen reader context = .nest .comment (advance reader) context := by
  have hcommon := commonTurn_of_comment group context ((current_eq_iff_head? (by decide)).mp hstar)
  cases group with
  | comment => exact hcommon
  | code => exact hcommon
  | bracket => exact hcommon

/-- Assumes: a brace that starts no complete quoted text. In a code block it opens a block. -/
theorem turn_code_braceOpen
    (hfails : (QuotedText.read reader context).matched = false) :
    Enclosure.turn .code Ascii.braceOpen reader context =
      .nest .code (QuotedText.read reader context).reader
        (QuotedText.read reader context).context := by
  have hunit : ¬ (QuotedText.read reader context).matched = true := by
    rw [hfails]
    exact Bool.false_ne_true
  exact if_neg hunit

/-- A quoted text that is opened but not closed reaches to the end of the text. -/
theorem rest_quotedText_of_opened
    (hopened : (QuotedText.readOpening reader context).matched = true)
    (hfails : (QuotedText.read reader context).matched = false) :
    rest (QuotedText.read reader context).reader = [] := by
  simp only [QuotedText.read, if_pos hopened] at hfails ⊢
  exact rest_findCloser_eq_nil hfails

/-- A run whose next character opens a construct that is never closed does not find the end of its
own. -/
theorem matched_run_of_opensUnterminated (hopens : nesting.OpensUnterminated) :
    nesting.run.matched = false := by
  cases hopens with
  | comment hnext hstar hfails =>
    simp only [readComment, if_pos hstar] at hfails
    exact matched_run_of_nest hnext (turn_parenOpen nesting.group nesting.context hstar) hfails
  | string hnext hopen =>
    exact matched_run_of_last_unit hnext (turn_doubleQuote nesting.group _ nesting.context)
      (StringLiteral.rest_finish_eq_nil hopen)
  | quotedText hgroup hnext hopened hfails =>
    have hrest := rest_quotedText_of_opened hopened hfails
    cases hnesting : nesting.group with
    | comment =>
      have hturn : nesting.group.turn Ascii.braceOpen nesting.takeNext nesting.context =
          .unit none (QuotedText.read nesting.takeNext nesting.context).reader
            (QuotedText.read nesting.takeNext nesting.context).context := by
        rw [hnesting]
        rfl
      exact matched_run_of_last_unit hnext hturn hrest
    | code =>
      refine matched_run_of_nest hnext (hnesting ▸ turn_code_braceOpen hfails) ?_
      refine (Outcome.verdict_eq_iff.mp (verdict_run_of_remaining_eq_nil ?_)).1
      rw [remaining_enter, hrest]
    | bracket => exact absurd hnesting hgroup
  | block hgroup hnext hplain hfails =>
    have hread : QuotedText.read nesting.takeNext nesting.context =
        QuotedText.readOpening nesting.takeNext nesting.context := by
      rw [QuotedText.read, hplain, if_neg Bool.false_ne_true]
    have hturn := turn_code_braceOpen (hread ▸ hplain)
    rw [QuotedText.read_context, hread] at hturn
    exact matched_run_of_nest hnext (hgroup ▸ hturn) hfails
  | bracket hgroup hnext hfails =>
    refine matched_run_of_nest hnext ?_ hfails
    rw [hgroup]
    rfl

/-- The machine goes from the one configuration to the other in one step. -/
def StepsTo (nesting after : Nesting ρ) : Prop := nesting.step = .more after

/-- A run may be looked at from any configuration that it comes to. -/
theorem run_eq_of_reaches {start : Nesting ρ}
    (hreaches : Relation.ReflTransGen StepsTo start nesting) : start.run = nesting.run := by
  induction hreaches with
  | refl => rfl
  | tail hsteps hstep ih => rw [ih, run_of_step_eq_more hstep]

end Nesting

/-- The recognizer has read the text to its end and has not found its construct. -/
def Outcome.FailsAtEnd (outcome : Outcome ρ) : Prop :=
  outcome.matched = false ∧ atEnd outcome.reader = true

/-- Assumes: a run that comes to a construct which is never closed. It fails at the end of the
text. -/
theorem Nesting.failsAtEnd_run {start nesting : Nesting ρ}
    (hreaches : Relation.ReflTransGen StepsTo start nesting)
    (hopens : nesting.OpensUnterminated) : start.run.FailsAtEnd := by
  have hmatched : start.run.matched = false := by
    rw [run_eq_of_reaches hreaches]
    exact matched_run_of_opensUnterminated hopens
  exact ⟨hmatched, atEnd_run hmatched⟩

/-! ### Types -/

/-- The recognizer of types passes one unit and goes on after it. -/
def PassesTypeUnit (before after : ρ × Context) : Prop :=
  atEnd before.1 = false ∧ current before.1 ≠ Ascii.greater ∧
    after = passTypeUnit before.1 before.2

theorem readType_of_passes {before after : ρ × Context} (hpasses : PassesTypeUnit before after) :
    readType before.1 before.2 = readType after.1 after.2 := by
  obtain ⟨hend, hgreater, hafter⟩ := hpasses
  rw [readType, if_neg (by rw [hend]; exact Bool.false_ne_true), if_neg hgreater, ← hafter]

theorem readType_eq_of_reaches {start later : ρ × Context}
    (hreaches : Relation.ReflTransGen PassesTypeUnit start later) :
    readType start.1 start.2 = readType later.1 later.2 := by
  induction hreaches with
  | refl => rfl
  | tail hsteps hpasses ih => rw [ih, readType_of_passes hpasses]

/-- Assumes: a comment inside of a type that is never closed. The recognizer of types fails at the
end of the text. -/
theorem failsAtEnd_readType {start later : ρ × Context}
    (hreaches : Relation.ReflTransGen PassesTypeUnit start later)
    (hparen : current later.1 = Ascii.parenOpen)
    (hstar : current (advance later.1) = Ascii.star)
    (hfails : (readComment (advance later.1) later.2).matched = false) :
    (readType start.1 start.2).FailsAtEnd := by
  have hend : atEnd later.1 = false := by
    refine atEnd_eq_false_of_current_ne_zero ?_
    rw [hparen]
    decide
  have hgreater : current later.1 ≠ Ascii.greater := by
    rw [hparen]
    decide
  have hcomment : atEnd (readComment (advance later.1) later.2).reader = true := by
    simp only [readComment, if_pos hstar] at hfails ⊢
    exact Nesting.atEnd_run hfails
  have hunit : passTypeUnit later.1 later.2 =
      ((readComment (advance later.1) later.2).reader,
        (readComment (advance later.1) later.2).context) := by
    rw [passTypeUnit, if_pos hparen]
  have hread : (readType start.1 start.2).matched = false := by
    rw [readType_eq_of_reaches hreaches, readType_of_passes ⟨hend, hgreater, rfl⟩, hunit, readType,
      if_pos hcomment]
  exact ⟨hread, atEnd_readType hread⟩

/-- For every reader, every request and every context: a scan that finds nothing has one of two
shapes, that of a scan for which no recognizer applied and that of a scan whose recognizer has read
the text to its end. And wherever the recognizer of code, of payloads, of comments or of types comes
to a comment, a string literal, a quoted text, a block or a bracket group inside of its construct
that is never closed, it fails at the end of the text. -/
theorem failed_scan_shapes (requested : Request) (reader : ρ) (context : Context) :
    ((scan requested reader context).kind = none →
      (scan requested reader context).Idle requested reader context ∨
        (scan requested reader context).Exhausted requested context) ∧
      (∀ nesting : Nesting ρ, nesting.OpensUnterminated →
        (Relation.ReflTransGen Nesting.StepsTo (Nesting.enter .code [] reader context) nesting →
            (readCode reader context).FailsAtEnd) ∧
          (Relation.ReflTransGen Nesting.StepsTo (Nesting.enter .bracket [] reader context)
              nesting →
            (readPayload reader context).FailsAtEnd) ∧
          (current reader = Ascii.star →
            Relation.ReflTransGen Nesting.StepsTo
              (Nesting.enter .comment [] (advance reader) context) nesting →
            (readComment reader context).FailsAtEnd)) ∧
      ∀ later : ρ × Context,
        Relation.ReflTransGen PassesTypeUnit (reader, context) later →
        current later.1 = Ascii.parenOpen → current (advance later.1) = Ascii.star →
        (readComment (advance later.1) later.2).matched = false →
        (readType reader context).FailsAtEnd := by
  refine ⟨idle_or_exhausted, ?_, ?_⟩
  · intro nesting hopens
    refine ⟨?_, ?_, ?_⟩
    · intro hreaches
      exact Nesting.failsAtEnd_run hreaches hopens
    · intro hreaches
      exact Nesting.failsAtEnd_run hreaches hopens
    · intro hstar hreaches
      rw [readComment, if_pos hstar]
      exact Nesting.failsAtEnd_run hreaches hopens
  · intro later hreaches hparen hstar hfails
    exact failsAtEnd_readType hreaches hparen hstar hfails

/-- Code that opens a comment, in which a string is opened and never closed. -/
theorem failed_scan_shapes_witness :
    let reader := (Source.mk "(*\"").readerAt 0
    let found := scan ⟨4⟩ reader .initial
    found.kind = none ∧ found.Exhausted ⟨4⟩ .initial ∧
      (readCode reader .initial).FailsAtEnd := by
  intro reader found
  have hnone : found.kind = none := by decide +kernel
  have hevent : found.event ≠ .noneApplies ⟨4⟩ := by decide +kernel
  obtain ⟨hshapes, hunterminated, -⟩ := failed_scan_shapes ⟨4⟩ reader .initial
  refine ⟨hnone, (hshapes hnone).resolve_left fun hidle ↦ hevent hidle.event_eq, ?_⟩
  let inner := Nesting.enter .comment [.code] (advance (advance (commit reader))) .initial
  have hstep : Nesting.StepsTo (Nesting.enter .code [] reader .initial) inner := rfl
  have hquote : inner.next? = some Ascii.doubleQuote := by decide +kernel
  have hrest : rest inner.takeNext = [] := by decide +kernel
  have hopen : ¬ StringLiteral.Closes (rest inner.takeNext) := by
    rw [hrest]
    exact nofun
  exact (hunterminated inner (.string hquote hopen)).1 (.single hstep)

end GrammarFragments
