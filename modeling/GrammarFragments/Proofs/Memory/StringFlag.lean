import Mathlib.Logic.Function.Iterate
import GrammarFragments.Proofs.Attempts
import GrammarFragments.Proofs.Simulation.Recognizers
import GrammarFragments.Reader.HostLexer

/-!
The in-string flag of a scanner counts the double quotes it has returned, and nothing else.
Comments, code, types and payloads are full of quotes of their own; the recognizers pass them as
parts of string literals and character literals and leave the flag alone, whether or not they find
their fragment. Only the attempt at a double quote turns the flag, and it always succeeds.

A scanner may be called any number of times, each time with a reader of another type, at another
place of another text, for other kinds (`ScanCall`). One call turns the flag exactly if it returns a
double quote, and it returns a comment only outside of strings (`record_flagFollows`); the history
of a scanner inherits both (`inString_lastContext`, `forall_history_flagFollows`).

Main statement: after any calls the flag is the one from before, turned once for each double quote
that was returned (`inString_counts_quoteMarks`).
-/

set_option autoImplicit false
set_option relaxedAutoImplicit false

namespace GrammarFragments

open Reader

/-! ### Calls and their history -/

/-- A call of a scanner: on a reader of any type, or on a source from an offset. A reader that an
earlier call has moved is a reader like any other. -/
inductive ScanCall : Type 1
  | scan {ρ : Type} [SeekReader ρ] (reader : ρ) (requested : Request)
  | scanAt (source : Source) (offset : Nat) (requested : Request)

/-- What a call has done: the context in which it was made, the kind it returned, and the context it
left. -/
structure ScanRecord where
  before : Context
  returned : Option FragmentKind
  after : Context

namespace ScanRecord

/-- The call returned a double quote. -/
def isQuoteMark (record : ScanRecord) : Bool := record.returned = some .quoteMark

/-- The call has turned the in-string flag exactly if it returned a double quote, and it returned a
comment only outside of strings. -/
structure FlagFollows (record : ScanRecord) : Prop where
  inString_after : record.after.inString =
    if record.isQuoteMark then !record.before.inString else record.before.inString
  outside_of_comment : record.returned = some .comment → record.before.inString = false

end ScanRecord

namespace ScanCall

/-- Makes a call in a context. -/
def record (context : Context) : ScanCall → ScanRecord
  | scan reader requested =>
    let found := GrammarFragments.scan requested reader context
    ⟨context, found.kind, found.context⟩
  | scanAt source offset requested =>
    let finding := source.scanAt offset requested context
    ⟨context, finding.fragment.map Fragment.kind, finding.context⟩

theorem before_record (context : Context) (call : ScanCall) :
    (call.record context).before = context := by
  cases call <;> rfl

/-- Makes calls one after the other, each in the context that the one before it has left. -/
def history : Context → List ScanCall → List ScanRecord
  | _, [] => []
  | context, call :: calls =>
    call.record context :: history (call.record context).after calls

/-- The context that is left by calls made one after the other. -/
def lastContext : Context → List ScanCall → Context
  | context, [] => context
  | context, call :: calls => lastContext (call.record context).after calls

end ScanCall

/-! ### One call -/

section Recognizers

variable {ρ : Type} [SeekReader ρ]

/-- A property of the in-string flag is kept by everything but a double quote. -/
theorem inString_simulation (flag : Bool) :
    Simulation (fun reader other : ρ ↦ reader = other ∧ True)
      (fun context other ↦ context = other ∧ context.inString = flag) :=
  Simulation.ofInvariant (fun _ ↦ True) (·.inString = flag) (fun _ _ ↦ trivial)
    (fun _ _ ↦ trivial) (fun _ _ ↦ trivial) fun _ hflag ↦ hflag

/-- No recognizer turns the in-string flag, found or not. -/
theorem inString_recognizers (reader : ρ) (context : Context) :
    (readComment reader context).context.inString = context.inString ∧
      (readCode reader context).context.inString = context.inString ∧
      (readType reader context).context.inString = context.inString ∧
      (readPayload reader context).context.inString = context.inString := by
  have hsim := inString_simulation (ρ := ρ) context.inString
  have hreader : reader = reader ∧ True := ⟨rfl, trivial⟩
  have hcontext : context = context ∧ context.inString = context.inString := ⟨rfl, rfl⟩
  exact ⟨(hsim.readComment_related hreader hcontext).context_akin.2,
    (hsim.readCode_related hreader hcontext).context_akin.2,
    (hsim.readType_related hreader hcontext).context_akin.2,
    (hsim.readPayload_related hreader hcontext).context_akin.2⟩

omit [SeekReader ρ] in
/-- Assumes: a recognizer other than that of double quotes, which leaves the flag alone and, if it
is that of comments, is tried outside of strings. The flag follows what it returned. -/
theorem flagFollows_ofOutcome {kind : FragmentKind} {outcome : Outcome ρ} {context : Context}
    (hkind : kind ≠ .quoteMark) (hflag : outcome.context.inString = context.inString)
    (houtside : kind = .comment → context.inString = false) :
    ScanRecord.FlagFollows
      ⟨context, (Attempt.ofOutcome kind outcome).kind?, outcome.context⟩ where
  inString_after := by
    have hother : (Attempt.ofOutcome kind outcome).kind? ≠ some .quoteMark := by
      intro hquote
      exact hkind (Attempt.kind?_ofOutcome_eq_some hquote).1.symm
    simp only [ScanRecord.isQuoteMark, decide_eq_true_eq, if_neg hother]
    exact hflag
  outside_of_comment := by
    intro hcomment
    exact houtside (Attempt.kind?_ofOutcome_eq_some hcomment).1.symm

/-- The flag follows what an attempt has found. -/
theorem flagFollows_of_tried {requested : Request} {reader : ρ} {context : Context}
    {attempt : Attempt ρ} (htried : Attempt.Tried requested reader context attempt) :
    ScanRecord.FlagFollows ⟨context, attempt.kind?, attempt.context⟩ := by
  cases htried with
  | comment houtside hpermits hparen hstar =>
    exact flagFollows_ofOutcome (by decide) (inString_recognizers _ context).1 fun _ ↦ houtside
  | code hentered hpermits =>
    exact flagFollows_ofOutcome (by decide) (inString_recognizers _ context).2.1 nofun
  | typeExpr hentered hpermits =>
    exact flagFollows_ofOutcome (by decide) (inString_recognizers _ context).2.2.1 nofun
  | payload hentered hpermits =>
    exact flagFollows_ofOutcome (by decide) (inString_recognizers _ context).2.2.2 nofun
  | quoteMark hpermits hquote => exact ⟨rfl, by simp [Attempt.toggleString, Attempt.kind?]⟩
  | nothing hentered => exact ⟨rfl, by simp [Attempt.kind?]⟩

theorem flagFollows_scan (requested : Request) (reader : ρ) (context : Context) :
    ScanRecord.FlagFollows
      ⟨context, (scan requested reader context).kind, (scan requested reader context).context⟩ :=
  flagFollows_of_tried (Attempt.start_tried requested (skipWhile isBlank reader) context)

end Recognizers

/-- One call turns the flag exactly if it returns a double quote, and it returns a comment only
outside of strings. -/
theorem ScanCall.record_flagFollows (context : Context) (call : ScanCall) :
    (call.record context).FlagFollows := by
  cases call with
  | scan reader requested => exact flagFollows_scan requested reader context
  | scanAt source offset requested =>
    have hkind : (source.scanAt offset requested context).fragment.map Fragment.kind =
        (GrammarFragments.scan requested (source.readerAt offset) context).kind := by
      simp only [Source.scanAt, Option.map_map]
      exact Option.map_id'
    simp only [ScanCall.record, hkind]
    exact flagFollows_scan requested (source.readerAt offset) context

/-! ### Any number of calls -/

namespace ScanCall

theorem forall_history_flagFollows (context : Context) (calls : List ScanCall) :
    ∀ record ∈ history context calls, record.FlagFollows := by
  induction calls generalizing context with
  | nil =>
    intro record hrecord
    cases hrecord
  | cons call calls ih =>
    rw [history, List.forall_mem_cons]
    exact ⟨record_flagFollows context call, ih _⟩

/-- The flag after some calls is turned once for each double quote that they returned. -/
theorem inString_lastContext (context : Context) (calls : List ScanCall) :
    (lastContext context calls).inString =
      not^[(history context calls).countP ScanRecord.isQuoteMark] context.inString := by
  induction calls generalizing context with
  | nil => rfl
  | cons call calls ih =>
    rw [lastContext, ih, history, List.countP_cons,
      (record_flagFollows context call).inString_after, before_record]
    by_cases hquote : (call.record context).isQuoteMark = true
    · rw [if_pos hquote, if_pos hquote, Function.iterate_succ_apply]
    · rw [if_neg hquote, if_neg hquote, Nat.add_zero]

end ScanCall

/-- After any number of calls, in any context, the in-string flag is the one from before the calls,
turned once for each of them that returned a double quote. Each single call has turned the flag
exactly if it returned a double quote, and has returned a comment only if the flag was not set. -/
theorem inString_counts_quoteMarks (context : Context) (calls : List ScanCall) :
    (ScanCall.lastContext context calls).inString =
        not^[(ScanCall.history context calls).countP ScanRecord.isQuoteMark] context.inString ∧
      ∀ record ∈ ScanCall.history context calls, record.FlagFollows :=
  ⟨ScanCall.inString_lastContext context calls, ScanCall.forall_history_flagFollows context calls⟩

/-- Between two double quotes a comment is not found, after them it is, and the quote inside of it
does not count. -/
theorem inString_counts_quoteMarks_witness :
    let calls : List ScanCall :=
      [.scanAt ⟨"\""⟩ 0 ⟨2⟩, .scan (HostLexer.ofText "(* a *)") ⟨1⟩, .scanAt ⟨" \""⟩ 0 ⟨3⟩,
        .scanAt ⟨"(* '\"' *)"⟩ 0 ⟨1⟩]
    let history := ScanCall.history .initial calls
    history.map ScanRecord.returned = [some .quoteMark, none, some .quoteMark, some .comment] ∧
      (ScanCall.lastContext .initial calls).inString = false ∧
      ∀ record ∈ history, record.returned = some .comment → record.before.inString = false := by
  intro calls history
  obtain ⟨hflag, hfollows⟩ := inString_counts_quoteMarks .initial calls
  have hquotes : history.countP ScanRecord.isQuoteMark = 2 := by decide +kernel
  refine ⟨by decide +kernel, ?_, fun record hrecord ↦ (hfollows record hrecord).outside_of_comment⟩
  rw [hflag, hquotes]
  rfl

end GrammarFragments
