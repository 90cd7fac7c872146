import GrammarFragments.Proofs.Simulation.Lexemes
import GrammarFragments.Scan.Basic

/-!
Two scans that run in step. A simulation relates the states of two readers and also the contexts of
the two sides; the relation between contexts has to be kept when both sides forget their tag, which
is all that a recognizer ever does to a context.

One step of the machine that follows groups keeps configurations related (`step_related`), so runs
end alike (`run_related`): the same verdict, related readers and related contexts. The recognizers
of comments, code, payloads and types inherit this, and so does a whole scan (`scan_related`), which
also needs related contexts to agree on the in-string flag and to stay related when both turn it.

A simulation may hold a reserve of characters back: the readers have to agree only while at least so
many characters are left. Since no reader comes back from its reserve, scans that end in front of it
still end alike.

The halves of a quoted text are read alike in the same context (`readOpening_related`), the second
one with any bytes as the tag if the readers show the very same bytes (`readClosing_related`).

A statement about one reader is the special case of a relation between equal states: what
advancing, searching and committing keep, every recognizer keeps (`ofInvariant`).
-/

set_option autoImplicit false
set_option relaxedAutoImplicit false

namespace GrammarFragments

open Reader

/-- Every quoted text, complete or not, leaves the context without a tag. -/
theorem QuotedText.read_context {ρ : Type} [Reader ρ] (reader : ρ) (context : Context) :
    (QuotedText.read reader context).context = context.clearTag := by
  simp only [QuotedText.read, QuotedText.readOpening]
  split
  · rfl
  · split
    · contradiction
    · rfl

/-- Readers that no recognizer tells apart, and contexts that stay related when both forget their
tag. -/
structure Simulation {ρ σ : Type} [SeekReader ρ] [SeekReader σ] (related : ρ → σ → Prop)
    (akin : Context → Context → Prop) (reserve : Nat := 0) : Prop
    extends SeekSimulation related reserve where
  clearTag_akin {context other : Context} (hakin : akin context other) :
    akin context.clearTag other.clearTag

/-- A simulation whose related contexts have the same in-string flag and stay related when both turn
it. -/
structure ScanSimulation {ρ σ : Type} [SeekReader ρ] [SeekReader σ] (related : ρ → σ → Prop)
    (akin : Context → Context → Prop) (reserve : Nat := 0) : Prop
    extends Simulation related akin reserve where
  inString_eq {context other : Context} (hakin : akin context other) :
    context.inString = other.inString
  toggle_akin {context other : Context} (hakin : akin context other) :
    akin { context with inString := !context.inString }
      { other with inString := !other.inString }

section Relations

variable {ρ σ : Type} (related : ρ → σ → Prop) (akin : Context → Context → Prop)

/-- The same verdict, with related readers and contexts. -/
structure OutcomesRelated (outcome : Outcome ρ) (other : Outcome σ) : Prop where
  matched_eq : outcome.matched = other.matched
  reader_related : related outcome.reader other.reader
  context_akin : akin outcome.context other.context

/-- Turns of the same sort, with related readers and contexts and alike characters handed back. -/
inductive TurnsRelated : Turn ρ → Turn σ → Prop
  | close {reader : ρ} {other : σ} {context otherContext : Context}
    (hrelated : related reader other) (hakin : akin context otherContext) :
    TurnsRelated (.close reader context) (.close other otherContext)
  | nest (inner : Enclosure) {reader : ρ} {other : σ} {context otherContext : Context}
    (hrelated : related reader other) (hakin : akin context otherContext) :
    TurnsRelated (.nest inner reader context) (.nest inner other otherContext)
  | hold {reader : ρ} {other : σ} {context otherContext : Context}
    (hrelated : related reader other) (hakin : akin context otherContext) :
    TurnsRelated (.hold reader context) (.hold other otherContext)
  | unit {pending otherPending : Option UInt8} {reader : ρ} {other : σ}
    {context otherContext : Context} (hpending : Option.Rel Alike pending otherPending)
    (hrelated : related reader other) (hakin : akin context otherContext) :
    TurnsRelated (.unit pending reader context) (.unit otherPending other otherContext)

/-- Configurations with the same open groups. -/
structure NestingsRelated (nesting : Nesting ρ) (other : Nesting σ) : Prop where
  group_eq : nesting.group = other.group
  outer_eq : nesting.outer = other.outer
  pending_alike : Option.Rel Alike nesting.pending other.pending
  reader_related : related nesting.reader other.reader
  context_akin : akin nesting.context other.context

/-- Steps that both finish or both go on. -/
inductive ProgressRelated : Nesting.Progress ρ → Nesting.Progress σ → Prop
  | done {outcome : Outcome ρ} {other : Outcome σ}
    (houtcomes : OutcomesRelated related akin outcome other) :
    ProgressRelated (.done outcome) (.done other)
  | more {nesting : Nesting ρ} {other : Nesting σ}
    (hnestings : NestingsRelated related akin nesting other) :
    ProgressRelated (.more nesting) (.more other)

/-- Attempts at the same kind with the same verdict. -/
structure AttemptsRelated (attempt : Attempt ρ) (other : Attempt σ) : Prop where
  tried_eq : attempt.tried = other.tried
  reader_related : related attempt.reader other.reader
  context_akin : akin attempt.context other.context

/-- Scans that find the same kind and report the same. -/
structure ScansRelated (found : Scan ρ) (other : Scan σ) : Prop where
  kind_eq : found.kind = other.kind
  event_eq : found.event = other.event
  reader_related : related found.reader other.reader
  context_akin : akin found.context other.context

end Relations

theorem OutcomesRelated.ofOutcome_related {ρ σ : Type} {related : ρ → σ → Prop}
    {akin : Context → Context → Prop} {outcome : Outcome ρ} {other : Outcome σ}
    (houtcomes : OutcomesRelated related akin outcome other) (kind : FragmentKind) :
    AttemptsRelated related akin (Attempt.ofOutcome kind outcome)
      (Attempt.ofOutcome kind other) where
  tried_eq := by rw [Attempt.ofOutcome, Attempt.ofOutcome, houtcomes.matched_eq]
  reader_related := houtcomes.reader_related
  context_akin := houtcomes.context_akin

/-- Characters handed back on the two sides are both the same ASCII character or neither is. -/
theorem pending_eq_some_iff {pending other : Option UInt8}
    (hpending : Option.Rel Alike pending other) (ascii : UInt8) (hascii : isAscii ascii = true) :
    pending = some ascii ↔ other = some ascii := by
  cases hpending with
  | none => rfl
  | some halike => rw [Option.some_inj, Option.some_inj, halike.eq_iff ascii hascii]

namespace ReaderSimulation

variable {ρ σ : Type} [Reader ρ] [Reader σ] {related : ρ → σ → Prop}
  (hsim : ReaderSimulation related)

include hsim

/-- The tag and the bar of a quoted text are read alike in the same context. -/
theorem readOpening_related {reader : ρ} {other : σ} (hrelated : related reader other)
    (context : Context) :
    OutcomesRelated related Eq (QuotedText.readOpening reader context)
      (QuotedText.readOpening other context) := by
  obtain ⟨htag, hstopped⟩ := hsim.collectWhile_related asciiOnly_isTagByte hrelated []
  have hbar := hsim.current_eq_iff hstopped Ascii.bar rfl
  simp only [QuotedText.readOpening, takeWhile, ← htag, hbar]
  split
  · exact ⟨rfl, hsim.advance_related hstopped, rfl⟩
  · exact ⟨rfl, hstopped, rfl⟩

/-- Assumes: readers that show the very same bytes. The body and the closer of a quoted text are
read alike in the same context, with any bytes as the tag. -/
theorem readClosing_related
    (hcurrent : ∀ {reader other}, related reader other → current reader = current other)
    {reader : ρ} {other : σ} (hrelated : related reader other) (context : Context) :
    OutcomesRelated related Eq (QuotedText.readClosing reader context)
      (QuotedText.readClosing other context) := by
  have hshown : ∀ byte ∈ context.tag, ShownAlike related 0 byte := by
    intro byte hbyte reader other hhere hspares
    rw [hcurrent hhere]
  obtain ⟨hclosed, hstopped⟩ := hsim.findCloser_of_shownAlike hshown hrelated
  exact ⟨hclosed, hstopped, rfl⟩

end ReaderSimulation

/-- Assumes: a class of ASCII bytes, and a relation under which states report alike characters and
are at the end together, and which is kept by skipping a character. Skipping a run of the class
keeps states related. -/
theorem skipWhile_related {ρ σ : Type} [Reader ρ] [Reader σ] (related : ρ → σ → Prop)
    {accept : UInt8 → Bool} (haccept : AsciiOnly accept)
    (hcurrent : ∀ {reader other}, related reader other → Alike (current reader) (current other))
    (hatEnd : ∀ {reader other}, related reader other → atEnd reader = atEnd other)
    (hskip : ∀ {reader other}, related reader other → atEnd reader = false →
      related (skip reader) (skip other))
    {reader : ρ} {other : σ} (hrelated : related reader other) :
    related (skipWhile accept reader) (skipWhile accept other) := by
  fun_induction skipWhile accept reader generalizing other
  case case1 reader hend =>
    rw [skipWhile, if_pos (hatEnd hrelated ▸ hend)]
    exact hrelated
  case case2 reader hend htaken ih =>
    have haccepted := Alike.apply_eq haccept (hcurrent hrelated)
    rw [skipWhile.eq_def accept other, if_neg (hatEnd hrelated ▸ hend), if_pos (haccepted ▸ htaken)]
    exact ih (hskip hrelated (by simpa using hend))
  case case3 reader hend htaken =>
    have haccepted := Alike.apply_eq haccept (hcurrent hrelated)
    rw [skipWhile, if_neg (hatEnd hrelated ▸ hend), if_neg (haccepted ▸ htaken)]
    exact hrelated

/-- The closing delimiter of every group ends with an ASCII character. -/
theorem Enclosure.isAscii_closer (group : Enclosure) : isAscii group.closer = true := by
  cases group <;> decide

/-! ### Where the reader is left -/

namespace Nesting

variable {ρ : Type} [SeekReader ρ] {nesting : Nesting ρ}

/-- The reader after a step. -/
def Progress.reader : Progress ρ → ρ
  | done outcome => outcome.reader
  | more nesting => nesting.reader

/-- A step that takes a character leaves what the turn of that character leaves. -/
theorem rest_reader_step {byte : UInt8} (hnext : nesting.next? = some byte) :
    rest nesting.step.reader =
      rest (nesting.group.turn byte nesting.takeNext nesting.context).reader := by
  simp only [step, hnext]
  cases nesting.group.turn byte nesting.takeNext nesting.context with
  | close reader context =>
    cases nesting.outer with
    | nil => rfl
    | cons group outer => exact Enclosure.rest_mark group reader
  | nest inner reader context => exact Enclosure.rest_mark inner reader
  | hold reader context => rfl
  | unit pending reader context =>
    by_cases hcloser : pending = some nesting.group.closer
    · simp only [if_pos hcloser]
      rfl
    · simp only [if_neg hcloser]
      exact Enclosure.rest_mark nesting.group reader

theorem rest_reader_step_suffix (nesting : Nesting ρ) :
    rest nesting.step.reader <:+ rest nesting.reader := by
  have hsuffix := nesting.rest_step_suffix
  cases hstep : nesting.step with
  | done outcome =>
    rw [hstep] at hsuffix
    exact hsuffix
  | more after =>
    rw [hstep] at hsuffix
    exact hsuffix

end Nesting

namespace Attempt

variable {ρ : Type} [SeekReader ρ]

theorem rest_ofComment (reader : ρ) (context : Context) :
    rest (ofComment reader context).reader = rest (readComment reader context).reader := by
  simp only [ofComment, ofOutcome]
  split
  · exact rest_commit _
  · rfl

theorem rest_afterComment_suffix (requested : Request) (first : UInt8) (reader : ρ)
    (context : Context) :
    rest (afterComment requested first reader context).reader <:+ rest reader := by
  rw [afterComment]
  split
  · exact Nesting.rest_run_enter_suffix .code [] reader context
  · split
    · exact rest_readType_suffix reader context
    · split
      · exact Nesting.rest_run_enter_suffix .bracket [] reader context
      · split
        · simp only [toggleString, rest_commit]
          exact rest_advance_suffix reader
        · exact List.suffix_rfl

/-- An attempt leaves a suffix of the rest. -/
theorem rest_start_suffix (requested : Request) (reader : ρ) (context : Context) :
    rest (start requested reader context).reader <:+ rest reader := by
  simp only [start]
  split
  · split
    · rw [rest_ofComment]
      exact (rest_readComment_suffix _ context).trans (rest_advance_suffix reader)
    · exact (rest_afterComment_suffix requested _ _ context).trans (rest_advance_suffix reader)
  · exact rest_afterComment_suffix requested _ reader context

end Attempt

namespace Simulation

/-- Assumes: a property of readers that advancing, searching and committing keep, and one of
contexts that forgetting the tag keeps. Equal states with the properties simulate each other. -/
theorem ofInvariant {ρ : Type} [SeekReader ρ] (holds : ρ → Prop) (kept : Context → Prop)
    (hadvance : ∀ reader : ρ, holds reader → holds (advance reader))
    (hseek : ∀ reader : ρ, holds reader → holds (SeekReader.seek reader))
    (hcommit : ∀ reader : ρ, holds reader → holds (commit reader))
    (hclear : ∀ context, kept context → kept context.clearTag) :
    Simulation (fun reader other : ρ ↦ reader = other ∧ holds reader)
      (fun context other ↦ context = other ∧ kept context) where
  current_alike := by
    rintro reader other ⟨rfl, -⟩ -
    exact Alike.refl _
  atEnd_eq := by
    rintro reader other ⟨rfl, -⟩ -
    rfl
  advance_related := by
    rintro reader other ⟨rfl, hholds⟩
    exact ⟨rfl, hadvance reader hholds⟩
  seek_related := by
    rintro reader other ⟨rfl, hholds⟩ -
    exact ⟨rfl, hseek reader hholds⟩
  commit_related := by
    rintro reader other ⟨rfl, hholds⟩
    exact ⟨rfl, hcommit reader hholds⟩
  clearTag_akin := by
    rintro context other ⟨rfl, hkept⟩
    exact ⟨rfl, hclear context hkept⟩

variable {ρ σ : Type} [SeekReader ρ] [SeekReader σ] {related : ρ → σ → Prop}
  {akin : Context → Context → Prop} {reserve : Nat} (hsim : Simulation related akin reserve)

include hsim

/-! ### Turns -/

theorem mark_related (group : Enclosure) {reader : ρ} {other : σ}
    (hrelated : related reader other) : related (group.mark reader) (group.mark other) := by
  rw [Enclosure.mark, Enclosure.mark]
  split
  · exact hsim.commit_related hrelated
  · exact hrelated

/-- A quoted text leaves both contexts without a tag. -/
theorem quotedText_akin {context otherContext : Context} (hakin : akin context otherContext)
    (reader : ρ) (other : σ) :
    akin (QuotedText.read reader context).context (QuotedText.read other otherContext).context := by
  rw [QuotedText.read_context, QuotedText.read_context]
  exact hsim.clearTag_akin hakin

/-- Quoted texts are read alike, and the contexts that they leave are related. -/
theorem quotedText_related {reader : ρ} {other : σ} (hrelated : related reader other)
    {context otherContext : Context} (hakin : akin context otherContext)
    (hspares : Spares reserve (QuotedText.read reader context).reader := by
      exact Nat.zero_le _) :
    OutcomesRelated related akin (QuotedText.read reader context)
      (QuotedText.read other otherContext) := by
  obtain ⟨hmatched, hreader⟩ := hsim.read_related hrelated context otherContext hspares
  exact ⟨hmatched, hreader, hsim.quotedText_akin hakin reader other⟩

theorem commonTurn_related (group : Enclosure) {byte otherByte : UInt8}
    (hbyte : Alike byte otherByte) {reader : ρ} {other : σ} (hrelated : related reader other)
    {context otherContext : Context} (hakin : akin context otherContext)
    (hspares : Spares reserve (group.commonTurn byte reader context).reader := by
      exact Nat.zero_le _) :
    TurnsRelated related akin (group.commonTurn byte reader context)
      (group.commonTurn otherByte other otherContext) := by
  have hhere := hspares.of_suffix (Enclosure.rest_commonTurn_suffix group byte reader context)
  simp only [Enclosure.commonTurn, hbyte.eq_iff Ascii.parenOpen rfl,
    hbyte.eq_iff Ascii.apostrophe rfl, hbyte.eq_iff Ascii.doubleQuote rfl,
    Alike.apply_eq asciiOnly_isWordStart hbyte,
    hsim.current_eq_iff hrelated Ascii.star rfl hhere] at hspares ⊢
  by_cases hparen : otherByte = Ascii.parenOpen
  · simp only [if_pos hparen]
    split
    · exact .nest .comment (hsim.advance_related hrelated) hakin
    · exact .unit .none hrelated hakin
  · simp only [if_neg hparen] at hspares ⊢
    by_cases hquote : otherByte = Ascii.apostrophe
    · simp only [if_pos hquote] at hspares ⊢
      have hprobe := hsim.probe_related (hsim.mark_related group hrelated) hspares
      exact .unit hprobe.1.pending_alike hprobe.2 hakin
    · simp only [if_neg hquote] at hspares ⊢
      by_cases hstring : otherByte = Ascii.doubleQuote
      · simp only [if_pos hstring] at hspares ⊢
        exact .unit .none (hsim.finish_related hrelated hspares) hakin
      · simp only [if_neg hstring] at hspares ⊢
        by_cases hstart : isWordStart otherByte = true
        · simp only [if_pos hstart] at hspares ⊢
          have hword := hsim.advanceWhile_related
            (fun halike ↦ Alike.apply_eq asciiOnly_isWordPart halike) hrelated hspares
          exact .unit .none hword hakin
        · simp only [if_neg hstart]
          exact .unit .none hrelated hakin

/-- Alike characters make the same of a group. -/
theorem turn_related (group : Enclosure) {byte otherByte : UInt8}
    (hbyte : Alike byte otherByte) {reader : ρ} {other : σ} (hrelated : related reader other)
    {context otherContext : Context} (hakin : akin context otherContext)
    (hspares : Spares reserve (group.turn byte reader context).reader := by
      exact Nat.zero_le _) :
    TurnsRelated related akin (group.turn byte reader context)
      (group.turn otherByte other otherContext) := by
  have hhere := hspares.of_suffix (Enclosure.rest_turn_suffix group byte reader context)
  have hcommon := fun hcommonSpares ↦
    hsim.commonTurn_related group hbyte hrelated hakin hcommonSpares
  have hcontext := hsim.quotedText_akin hakin reader other
  cases group with
  | comment =>
    simp only [Enclosure.turn, Enclosure.commentTurn, hbyte.eq_iff Ascii.star rfl,
      hbyte.eq_iff Ascii.braceOpen rfl, hsim.current_eq_iff hrelated Ascii.parenClose rfl hhere]
      at hspares ⊢
    by_cases hclose : otherByte = Ascii.star ∧ current other = Ascii.parenClose
    · simp only [if_pos hclose]
      exact .close (hsim.advance_related hrelated) hakin
    · simp only [if_neg hclose] at hspares ⊢
      by_cases hbrace : otherByte = Ascii.braceOpen
      · simp only [if_pos hbrace] at hspares ⊢
        have hquoted := hsim.read_related hrelated context otherContext hspares
        exact .unit .none hquoted.2 hcontext
      · simp only [if_neg hbrace] at hspares ⊢
        exact hcommon hspares
  | code =>
    simp only [Enclosure.turn, Enclosure.codeTurn, hbyte.eq_iff Ascii.braceClose rfl,
      hbyte.eq_iff Ascii.braceOpen rfl, hbyte.eq_iff Ascii.percent rfl,
      hsim.current_eq_iff hrelated Ascii.braceClose rfl hhere] at hspares ⊢
    by_cases hclose : otherByte = Ascii.braceClose
    · simp only [if_pos hclose]
      exact .close hrelated hakin
    · simp only [if_neg hclose] at hspares ⊢
      by_cases hbrace : otherByte = Ascii.braceOpen
      · simp only [if_pos hbrace] at hspares ⊢
        have hread : Spares reserve (QuotedText.read reader context).reader := by
          split at hspares
          · exact hspares
          · exact hspares
        have hquoted := hsim.read_related hrelated context otherContext hread
        rw [hquoted.1]
        split
        · exact .unit .none hquoted.2 hcontext
        · exact .nest .code hquoted.2 hcontext
      · simp only [if_neg hbrace] at hspares ⊢
        by_cases hhold : otherByte = Ascii.percent ∧ current other = Ascii.braceClose
        · simp only [if_pos hhold]
          exact .hold hrelated hakin
        · simp only [if_neg hhold] at hspares ⊢
          exact hcommon hspares
  | bracket =>
    simp only [Enclosure.turn, Enclosure.bracketTurn, hbyte.eq_iff Ascii.bracketClose rfl,
      hbyte.eq_iff Ascii.bracketOpen rfl] at hspares ⊢
    by_cases hclose : otherByte = Ascii.bracketClose
    · simp only [if_pos hclose]
      exact .close hrelated hakin
    · simp only [if_neg hclose] at hspares ⊢
      by_cases hopen : otherByte = Ascii.bracketOpen
      · simp only [if_pos hopen]
        exact .nest .bracket hrelated hakin
      · simp only [if_neg hopen] at hspares ⊢
        exact hcommon hspares

/-! ### Steps and runs -/

theorem next?_alike {nesting : Nesting ρ} {other : Nesting σ}
    (hnestings : NestingsRelated related akin nesting other)
    (hspares : Spares reserve nesting.reader := by exact Nat.zero_le _) :
    Option.Rel Alike nesting.next? other.next? := by
  have hpending := hnestings.pending_alike
  rw [Nesting.next?, Nesting.next?, hsim.atEnd_eq hnestings.reader_related hspares]
  generalize nesting.pending = pending, other.pending = otherPending at hpending ⊢
  cases hpending with
  | some halike => exact .some halike
  | none =>
    by_cases hend : atEnd other.reader = true
    · rw [if_pos hend, if_pos hend]
      exact .none
    · rw [if_neg hend, if_neg hend]
      exact .some (hsim.current_alike hnestings.reader_related hspares)

theorem takeNext_related {nesting : Nesting ρ} {other : Nesting σ}
    (hnestings : NestingsRelated related akin nesting other) :
    related nesting.takeNext other.takeNext := by
  have hpending := hnestings.pending_alike
  rw [Nesting.takeNext, Nesting.takeNext]
  generalize nesting.pending = pending, other.pending = otherPending at hpending ⊢
  cases hpending with
  | some halike => exact hnestings.reader_related
  | none => exact hsim.advance_related hnestings.reader_related

theorem enter_related (group : Enclosure) (outer : List Enclosure) {reader : ρ} {other : σ}
    (hrelated : related reader other) {context otherContext : Context}
    (hakin : akin context otherContext) :
    NestingsRelated related akin (Nesting.enter group outer reader context)
      (Nesting.enter group outer other otherContext) :=
  ⟨rfl, rfl, .none, hsim.mark_related group hrelated, hakin⟩

theorem leave_related (outer : List Enclosure) {reader : ρ} {other : σ}
    (hrelated : related reader other) {context otherContext : Context}
    (hakin : akin context otherContext) :
    ProgressRelated related akin (Nesting.leave outer reader context)
      (Nesting.leave outer other otherContext) := by
  cases outer with
  | nil => exact .done ⟨rfl, hrelated, hakin⟩
  | cons group outer => exact .more (hsim.enter_related group outer hrelated hakin)

theorem foldl_mark_related (groups : List Enclosure) {reader : ρ} {other : σ}
    (hrelated : related reader other) :
    related (groups.foldl (fun reader group ↦ group.mark reader) reader)
      (groups.foldl (fun reader group ↦ group.mark reader) other) := by
  induction groups generalizing reader other with
  | nil => exact hrelated
  | cons group groups ih => exact ih (hsim.mark_related group hrelated)

/-- One step keeps configurations related, or finishes alike on both sides. -/
theorem step_related {nesting : Nesting ρ} {other : Nesting σ}
    (hnestings : NestingsRelated related akin nesting other)
    (hspares : Spares reserve nesting.step.reader := by exact Nat.zero_le _) :
    ProgressRelated related akin nesting.step other.step := by
  have hhere := hspares.of_suffix nesting.rest_reader_step_suffix
  have hnext := hsim.next?_alike hnestings hhere
  have htaken := hsim.takeNext_related hnestings
  have hturnSpares : ∀ {byte}, nesting.next? = some byte →
      Spares reserve (nesting.group.turn byte nesting.takeNext nesting.context).reader :=
    fun hnext ↦ hspares.of_suffix (Nesting.rest_reader_step hnext ▸ List.suffix_rfl)
  obtain ⟨hgroup, houter, -, hrelated, hakin⟩ := hnestings
  rw [Nesting.step, Nesting.step]
  generalize nesting.next? = next, other.next? = otherNext at hnext hturnSpares ⊢
  cases hnext with
  | none =>
    refine .done ⟨rfl, ?_, hakin⟩
    simp only [Nesting.abandon, houter]
    exact hsim.foldl_mark_related other.outer hrelated
  | some hbyte =>
    have hturn := hsim.turn_related nesting.group hbyte htaken hakin (hturnSpares rfl)
    simp only [hgroup, houter] at hturn ⊢
    revert hturn
    generalize Enclosure.turn other.group _ nesting.takeNext nesting.context = turn
    generalize Enclosure.turn other.group _ other.takeNext other.context = otherTurn
    intro hturn
    cases hturn with
    | close hrelated hakin => exact hsim.leave_related _ hrelated hakin
    | nest inner hrelated hakin => exact .more (hsim.enter_related inner _ hrelated hakin)
    | hold hrelated hakin => exact .more ⟨rfl, rfl, .none, hrelated, hakin⟩
    | unit hpending hrelated hakin =>
      simp only [pending_eq_some_iff hpending _ other.group.isAscii_closer]
      split
      · exact .more ⟨rfl, rfl, hpending, hrelated, hakin⟩
      · exact .more ⟨rfl, rfl, hpending, hsim.mark_related _ hrelated, hakin⟩

/-- Runs from related configurations end alike. -/
theorem run_related {nesting : Nesting ρ} {other : Nesting σ}
    (hnestings : NestingsRelated related akin nesting other)
    (hspares : Spares reserve nesting.run.reader := by exact Nat.zero_le _) :
    OutcomesRelated related akin nesting.run other.run := by
  fun_induction Nesting.run nesting generalizing other
  case case1 nesting outcome hstep =>
    have hprogress := hsim.step_related hnestings (by rw [hstep]; exact hspares)
    rw [hstep] at hprogress
    cases hother : other.step with
    | done otherOutcome =>
      rw [hother] at hprogress
      rw [Nesting.run_of_step_eq_done hother]
      cases hprogress with
      | done houtcomes => exact houtcomes
    | more otherAfter =>
      rw [hother] at hprogress
      cases hprogress
  case case2 nesting after hstep ih =>
    have hafter : Spares reserve after.reader := hspares.of_suffix after.rest_run_suffix
    have hprogress := hsim.step_related hnestings (by rw [hstep]; exact hafter)
    rw [hstep] at hprogress
    cases hother : other.step with
    | done otherOutcome =>
      rw [hother] at hprogress
      cases hprogress
    | more otherAfter =>
      rw [hother] at hprogress
      rw [Nesting.run_of_step_eq_more hother]
      cases hprogress with
      | more hnestings => exact ih hnestings hspares

/-! ### Recognizers -/

theorem readComment_related {reader : ρ} {other : σ} (hrelated : related reader other)
    {context otherContext : Context} (hakin : akin context otherContext)
    (hspares : Spares reserve (readComment reader context).reader := by exact Nat.zero_le _) :
    OutcomesRelated related akin (readComment reader context) (readComment other otherContext) := by
  have hhere := hspares.of_suffix (rest_readComment_suffix reader context)
  simp only [readComment, hsim.current_eq_iff hrelated Ascii.star rfl hhere] at hspares ⊢
  by_cases hstar : current other = Ascii.star
  · simp only [if_pos hstar] at hspares ⊢
    have hentered := hsim.enter_related .comment [] (hsim.advance_related hrelated) hakin
    exact hsim.run_related hentered hspares
  · simp only [if_neg hstar]
    exact ⟨rfl, hrelated, hakin⟩

theorem readCode_related {reader : ρ} {other : σ} (hrelated : related reader other)
    {context otherContext : Context} (hakin : akin context otherContext)
    (hspares : Spares reserve (readCode reader context).reader := by exact Nat.zero_le _) :
    OutcomesRelated related akin (readCode reader context) (readCode other otherContext) :=
  hsim.run_related (hsim.enter_related .code [] hrelated hakin) hspares

theorem readPayload_related {reader : ρ} {other : σ} (hrelated : related reader other)
    {context otherContext : Context} (hakin : akin context otherContext)
    (hspares : Spares reserve (readPayload reader context).reader := by exact Nat.zero_le _) :
    OutcomesRelated related akin (readPayload reader context) (readPayload other otherContext) :=
  hsim.run_related (hsim.enter_related .bracket [] hrelated hakin) hspares

theorem passTypeUnit_related {reader : ρ} {other : σ} (hrelated : related reader other)
    {context otherContext : Context} (hakin : akin context otherContext)
    (hspares : Spares reserve (passTypeUnit reader context).1 := by exact Nat.zero_le _) :
    related (passTypeUnit reader context).1 (passTypeUnit other otherContext).1 ∧
      akin (passTypeUnit reader context).2 (passTypeUnit other otherContext).2 := by
  have hsecond := hsim.advance_related hrelated
  have hthere := hspares.of_suffix (rest_passTypeUnit_suffix reader context)
  have hhere := hthere.of_suffix (rest_advance_suffix reader)
  simp only [passTypeUnit, hsim.current_eq_iff hrelated Ascii.parenOpen rfl hhere,
    hsim.current_eq_iff hrelated Ascii.minus rfl hhere,
    hsim.current_eq_iff hrelated Ascii.bracketOpen rfl hhere,
    hsim.current_eq_iff hsecond Ascii.greater rfl hthere] at hspares ⊢
  by_cases hparen : current other = Ascii.parenOpen
  · simp only [if_pos hparen] at hspares ⊢
    have hcomment := hsim.readComment_related hsecond hakin hspares
    exact ⟨hcomment.reader_related, hcomment.context_akin⟩
  · simp only [if_neg hparen]
    split
    · exact ⟨hsim.advance_related hsecond, hakin⟩
    · exact ⟨hsecond, hakin⟩

theorem readType_related {reader : ρ} {other : σ} (hrelated : related reader other)
    {context otherContext : Context} (hakin : akin context otherContext)
    (hspares : Spares reserve (readType reader context).reader := by exact Nat.zero_le _) :
    OutcomesRelated related akin (readType reader context) (readType other otherContext) := by
  fun_induction readType reader context generalizing other otherContext
  case case1 reader context hend =>
    rw [readType, if_pos (hsim.atEnd_eq hrelated hspares ▸ hend)]
    exact ⟨rfl, hrelated, hakin⟩
  case case2 reader context hend hgreater =>
    have hhere : Spares reserve reader := hspares.of_suffix (rest_commit reader ▸ List.suffix_rfl)
    rw [readType, if_neg (hsim.atEnd_eq hrelated hhere ▸ hend),
      if_pos ((hsim.current_eq_iff hrelated Ascii.greater rfl hhere).mp hgreater)]
    exact ⟨rfl, hsim.commit_related hrelated, hakin⟩
  case case3 reader context hend hgreater passed ih =>
    have hunit : Spares reserve passed.1 := hspares.of_suffix (rest_readType_suffix _ _)
    have hhere : Spares reserve reader := hunit.of_suffix
      ((rest_passTypeUnit_suffix reader context).trans (rest_advance_suffix reader))
    rw [readType.eq_def other, if_neg (hsim.atEnd_eq hrelated hhere ▸ hend),
      if_neg (mt (hsim.current_eq_iff hrelated Ascii.greater rfl hhere).mpr hgreater)]
    have hpassed := hsim.passTypeUnit_related hrelated hakin hunit
    exact ih hpassed.1 hpassed.2 hspares

/-! ### Scans -/

theorem ofComment_related {reader : ρ} {other : σ} (hrelated : related reader other)
    {context otherContext : Context} (hakin : akin context otherContext)
    (hspares : Spares reserve (Attempt.ofComment reader context).reader := by
      exact Nat.zero_le _) :
    AttemptsRelated related akin (Attempt.ofComment reader context)
      (Attempt.ofComment other otherContext) := by
  have hcomment : Spares reserve (readComment reader context).reader :=
    hspares.of_suffix (Attempt.rest_ofComment reader context ▸ List.suffix_rfl)
  have houtcomes := hsim.readComment_related hrelated hakin hcomment
  have hcommitted : related
      (if (readComment reader context).matched then commit (readComment reader context).reader
        else (readComment reader context).reader)
      (if (readComment other otherContext).matched then
        commit (readComment other otherContext).reader
        else (readComment other otherContext).reader) := by
    rw [houtcomes.matched_eq]
    split
    · exact hsim.commit_related houtcomes.reader_related
    · exact houtcomes.reader_related
  exact ⟨by simp only [Attempt.ofComment, Attempt.ofOutcome, houtcomes.matched_eq], hcommitted,
    houtcomes.context_akin⟩

end Simulation

namespace ScanSimulation

variable {ρ σ : Type} [SeekReader ρ] [SeekReader σ] {related : ρ → σ → Prop}
  {akin : Context → Context → Prop} {reserve : Nat} (hsim : ScanSimulation related akin reserve)

include hsim

theorem afterComment_related (requested : Request) {first otherFirst : UInt8}
    (hfirst : Alike first otherFirst) {reader : ρ} {other : σ} (hrelated : related reader other)
    {context otherContext : Context} (hakin : akin context otherContext)
    (hspares : Spares reserve (Attempt.afterComment requested first reader context).reader := by
      exact Nat.zero_le _) :
    AttemptsRelated related akin (Attempt.afterComment requested first reader context)
      (Attempt.afterComment requested otherFirst other otherContext) := by
  simp only [Attempt.afterComment, hfirst.eq_iff Ascii.doubleQuote rfl] at hspares ⊢
  by_cases hcode : requested.permits .code = true
  · simp only [if_pos hcode] at hspares ⊢
    exact (hsim.readCode_related hrelated hakin hspares).ofOutcome_related .code
  · simp only [if_neg hcode] at hspares ⊢
    by_cases htype : requested.permits .typeExpr = true
    · simp only [if_pos htype] at hspares ⊢
      exact (hsim.readType_related hrelated hakin hspares).ofOutcome_related .typeExpr
    · simp only [if_neg htype] at hspares ⊢
      by_cases hpayload : requested.permits .payload = true
      · simp only [if_pos hpayload] at hspares ⊢
        exact (hsim.readPayload_related hrelated hakin hspares).ofOutcome_related .payload
      · simp only [if_neg hpayload]
        split
        · exact ⟨rfl, hsim.commit_related (hsim.advance_related hrelated), hsim.toggle_akin hakin⟩
        · exact ⟨rfl, hrelated, hakin⟩

theorem start_related (requested : Request) {reader : ρ} {other : σ}
    (hrelated : related reader other) {context otherContext : Context}
    (hakin : akin context otherContext)
    (hspares : Spares reserve (Attempt.start requested reader context).reader := by
      exact Nat.zero_le _) :
    AttemptsRelated related akin (Attempt.start requested reader context)
      (Attempt.start requested other otherContext) := by
  have hhere := hspares.of_suffix (Attempt.rest_start_suffix requested reader context)
  have hfirst := hsim.current_alike hrelated hhere
  have hsecond := hsim.advance_related hrelated
  simp only [Attempt.start, hsim.inString_eq hakin, hfirst.eq_iff Ascii.parenOpen rfl]
    at hspares ⊢
  by_cases hparen : otherContext.inString = false ∧ requested.permits .comment = true ∧
      current other = Ascii.parenOpen
  · simp only [if_pos hparen] at hspares ⊢
    have hthere : Spares reserve (advance reader) := by
      refine hspares.of_suffix ?_
      split
      · rw [Attempt.rest_ofComment]
        exact rest_readComment_suffix _ context
      · exact Attempt.rest_afterComment_suffix requested _ _ context
    simp only [hsim.current_eq_iff hsecond Ascii.star rfl hthere] at hspares ⊢
    by_cases hstar : current (advance other) = Ascii.star
    · simp only [if_pos hstar] at hspares ⊢
      exact hsim.ofComment_related hsecond hakin hspares
    · simp only [if_neg hstar] at hspares ⊢
      exact hsim.afterComment_related requested hfirst hsecond hakin hspares
  · simp only [if_neg hparen] at hspares ⊢
    exact hsim.afterComment_related requested hfirst hrelated hakin hspares

/-- Assumes: readers that are related once the blanks have been skipped. The scans find the same and
report the same. -/
theorem scan_related (requested : Request) {reader : ρ} {other : σ}
    (hskipped : related (skipWhile isBlank reader) (skipWhile isBlank other))
    {context otherContext : Context} (hakin : akin context otherContext)
    (hspares : Spares reserve (scan requested reader context).reader := by
      exact Nat.zero_le _) :
    ScansRelated related akin (scan requested reader context)
      (scan requested other otherContext) := by
  have hattempts := hsim.start_related requested hskipped hakin hspares
  refine ⟨?_, ?_, hattempts.reader_related, hattempts.context_akin⟩
  · simp only [scan, Attempt.kind?, hattempts.tried_eq]
  · simp only [scan, Attempt.event, hattempts.tried_eq, hsim.inString_eq hattempts.context_akin]

end ScanSimulation

/-! ### What one reader keeps -/

/-- Assumes: a property of readers that advancing, searching and committing keep, and one of
contexts that forgetting the tag and turning the in-string flag keep. Equal states with the
properties simulate each other in a scan. -/
theorem ScanSimulation.ofInvariant {ρ : Type} [SeekReader ρ] (holds : ρ → Prop)
    (kept : Context → Prop) (hadvance : ∀ reader : ρ, holds reader → holds (advance reader))
    (hseek : ∀ reader : ρ, holds reader → holds (SeekReader.seek reader))
    (hcommit : ∀ reader : ρ, holds reader → holds (commit reader))
    (hclear : ∀ context, kept context → kept context.clearTag)
    (htoggle : ∀ context, kept context → kept { context with inString := !context.inString }) :
    ScanSimulation (fun reader other : ρ ↦ reader = other ∧ holds reader)
      (fun context other ↦ context = other ∧ kept context) where
  toSimulation := Simulation.ofInvariant holds kept hadvance hseek hcommit hclear
  inString_eq := by
    rintro context other ⟨rfl, -⟩
    rfl
  toggle_akin := by
    rintro context other ⟨rfl, hkept⟩
    exact ⟨rfl, htoggle context hkept⟩

/-- Assumes: a property of contexts that forgetting the tag and turning the in-string flag keep. A
scan keeps it, found or not. -/
theorem scan_keeps {ρ : Type} [SeekReader ρ] (kept : Context → Prop)
    (hclear : ∀ context, kept context → kept context.clearTag)
    (htoggle : ∀ context, kept context → kept { context with inString := !context.inString })
    (requested : Request) (reader : ρ) {context : Context} (hkept : kept context) :
    kept (scan requested reader context).context := by
  have hsim := ScanSimulation.ofInvariant (fun _ : ρ ↦ True) kept (fun _ _ ↦ trivial)
    (fun _ _ ↦ trivial) (fun _ _ ↦ trivial) hclear htoggle
  exact (hsim.scan_related requested ⟨rfl, trivial⟩ ⟨rfl, hkept⟩).context_akin.2

/-- Assumes: a property of readers that advancing, searching and committing keep, and which holds
once the blanks have been skipped. It holds after the scan, found or not. -/
theorem scan_keeps_reader {ρ : Type} [SeekReader ρ] (holds : ρ → Prop)
    (hadvance : ∀ reader : ρ, holds reader → holds (advance reader))
    (hseek : ∀ reader : ρ, holds reader → holds (SeekReader.seek reader))
    (hcommit : ∀ reader : ρ, holds reader → holds (commit reader))
    (requested : Request) (reader : ρ) (context : Context)
    (hholds : holds (skipWhile isBlank reader)) :
    holds (scan requested reader context).reader := by
  have hsim := ScanSimulation.ofInvariant holds (fun _ ↦ True) hadvance hseek hcommit
    (fun _ _ ↦ trivial) (fun _ _ ↦ trivial)
  exact (hsim.scan_related requested ⟨rfl, hholds⟩ ⟨rfl, trivial⟩).reader_related.2

section Invariants

variable {ρ : Type} [SeekReader ρ] (holds : ρ → Prop)

/-- Assumes: a property that advancing, searching and committing keep. A run keeps it. -/
theorem run_holds (hadvance : ∀ reader : ρ, holds reader → holds (advance reader))
    (hseek : ∀ reader : ρ, holds reader → holds (SeekReader.seek reader))
    (hcommit : ∀ reader : ρ, holds reader → holds (commit reader)) {nesting : Nesting ρ}
    (hholds : holds nesting.reader) : holds nesting.run.reader := by
  have hsim := Simulation.ofInvariant holds (fun _ ↦ True) hadvance hseek hcommit
    fun _ _ ↦ trivial
  have hpending := Alike.rel_refl nesting.pending
  exact (hsim.run_related ⟨rfl, rfl, hpending, ⟨rfl, hholds⟩, ⟨rfl, trivial⟩⟩).reader_related.2

variable (hadvance : ∀ reader : ρ, holds reader → holds (advance reader))
  (hseek : ∀ reader : ρ, holds reader → holds (SeekReader.seek reader))
  (hcommit : ∀ reader : ρ, holds (commit reader))

include hadvance hseek hcommit

/-- Code blocks and bracket groups commit as soon as they are entered. -/
theorem run_enter_holds {group : Enclosure} (hcommits : group.commits = true)
    (outer : List Enclosure) (reader : ρ) (context : Context) :
    holds (Nesting.enter group outer reader context).run.reader := by
  refine run_holds holds hadvance hseek (fun reader _ ↦ hcommit reader) ?_
  rw [Nesting.enter, Enclosure.mark, if_pos hcommits]
  exact hcommit reader

omit hadvance hseek in
/-- A type commits when it is found complete. -/
theorem readType_holds {reader : ρ} {context : Context}
    (hmatched : (readType reader context).matched = true) :
    holds (readType reader context).reader := by
  fun_induction readType reader context with
  | case1 reader context hend => exact absurd hmatched Bool.false_ne_true
  | case2 reader context hend hgreater => exact hcommit reader
  | case3 reader context hend hgreater passed ih => exact ih hmatched

omit hadvance hseek in
/-- A comment found by a scan is committed at its end. -/
theorem ofComment_holds {reader : ρ} {context : Context}
    (hkind : (Attempt.ofComment reader context).kind?.isSome = true) :
    holds (Attempt.ofComment reader context).reader := by
  have hmatched : (readComment reader context).matched = true := by
    simpa only [Attempt.ofComment, Attempt.isSome_kind?_ofOutcome] using hkind
  simp only [Attempt.ofComment, Attempt.ofOutcome, if_pos hmatched]
  exact hcommit _

theorem afterComment_holds {requested : Request} {first : UInt8} {reader : ρ} {context : Context}
    (hkind : (Attempt.afterComment requested first reader context).kind?.isSome = true) :
    holds (Attempt.afterComment requested first reader context).reader := by
  rw [Attempt.afterComment] at hkind ⊢
  by_cases hcode : requested.permits .code = true
  · rw [if_pos hcode]
    exact run_enter_holds holds hadvance hseek hcommit rfl [] reader context
  · rw [if_neg hcode] at hkind ⊢
    by_cases htype : requested.permits .typeExpr = true
    · rw [if_pos htype, Attempt.isSome_kind?_ofOutcome] at hkind
      rw [if_pos htype]
      exact readType_holds holds hcommit hkind
    · rw [if_neg htype] at hkind ⊢
      by_cases hpayload : requested.permits .payload = true
      · rw [if_pos hpayload]
        exact run_enter_holds holds hadvance hseek hcommit rfl [] reader context
      · rw [if_neg hpayload] at hkind ⊢
        by_cases hquote : requested.permits .quoteMark ∧ first = Ascii.doubleQuote
        · rw [if_pos hquote]
          exact hcommit _
        · rw [if_neg hquote] at hkind
          exact absurd hkind Bool.false_ne_true

/-- Assumes: a property that holds after every commitment and that advancing and searching keep. It
holds after every scan that finds a fragment. -/
theorem scan_holds {requested : Request} {reader : ρ} {context : Context}
    (hkind : (scan requested reader context).kind.isSome = true) :
    holds (scan requested reader context).reader := by
  simp only [scan, Attempt.start] at hkind ⊢
  split at hkind
  · rename_i hcomment
    rw [if_pos hcomment]
    split at hkind
    · rename_i hstar
      rw [if_pos hstar]
      exact ofComment_holds holds hcommit hkind
    · rename_i hstar
      rw [if_neg hstar]
      exact afterComment_holds holds hadvance hseek hcommit hkind
  · rename_i hcomment
    rw [if_neg hcomment]
    exact afterComment_holds holds hadvance hseek hcommit hkind

end Invariants

end GrammarFragments
