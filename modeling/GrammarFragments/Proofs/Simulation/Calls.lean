import GrammarFragments.Proofs.Simulation.Recognizers

/-!
Whole runs of a reader. Whoever holds a reader makes calls on it, in any order and each in a context
of its choice: single operations, lexemes, recognizers, scans (`ReaderCall`). Readers that show the
same bytes and stay related under every single operation stay related under every run of calls
(`performAll_related`), because a recognizer has no other way to move a reader.

A traced reader remembers the states it has been in, those inside of a recognizer included. It
follows the reader that it wraps, so what is seen of its past is the past of that reader. To show a
property of every state of a run, it is enough to show that each operation keeps it
(`performAll_traced`). A relation between each state and the earlier ones comes with it, if it is
transitive and holds across each operation.
-/

set_option autoImplicit false
set_option relaxedAutoImplicit false

namespace GrammarFragments

open Reader

/-- A call made on a reader. Where the call reads a context, it reads the one given. -/
inductive ReaderCall
  | advance
  | skip
  | commit
  | resetToken
  | seek
  | stringLiteral
  | charLiteral
  | quotedOpening (context : Context)
  | quotedClosing (context : Context)
  | quotedText (context : Context)
  | comment (context : Context)
  | code (context : Context)
  | typeExpr (context : Context)
  | payload (context : Context)
  | scan (requested : Request) (context : Context)

namespace ReaderCall

variable {ρ : Type} [SeekReader ρ]

/-- The reader after a call, where `reset` starts a new token. -/
def perform (reset : ρ → ρ) (reader : ρ) : ReaderCall → ρ
  | advance => Reader.advance reader
  | skip => Reader.skip reader
  | commit => Reader.commit reader
  | resetToken => reset reader
  | seek => SeekReader.seek reader
  | stringLiteral => StringLiteral.finish reader
  | charLiteral => (CharLiteral.probe reader).2
  | quotedOpening context => (QuotedText.readOpening reader context).reader
  | quotedClosing context => (QuotedText.readClosing reader context).reader
  | quotedText context => (QuotedText.read reader context).reader
  | comment context => (readComment reader context).reader
  | code context => (readCode reader context).reader
  | typeExpr context => (readType reader context).reader
  | payload context => (readPayload reader context).reader
  | scan requested context => (GrammarFragments.scan requested reader context).reader

/-- The reader after some calls, made one after the other. -/
def performAll (reset : ρ → ρ) (reader : ρ) (calls : List ReaderCall) : ρ :=
  calls.foldl (perform reset) reader

end ReaderCall

/-! ### Runs in step -/

/-- The relation is kept by every operation of a reader, and related states show the same byte. -/
structure CallSimulation {ρ σ : Type} [SeekReader ρ] [SeekReader σ] (related : ρ → σ → Prop)
    (reset : ρ → ρ) (otherReset : σ → σ) : Prop where
  current_eq {reader : ρ} {other : σ} (hrelated : related reader other) :
    current reader = current other
  atEnd_eq {reader : ρ} {other : σ} (hrelated : related reader other) :
    atEnd reader = atEnd other
  advance_related {reader : ρ} {other : σ} (hrelated : related reader other) :
    related (advance reader) (advance other)
  seek_related {reader : ρ} {other : σ} (hrelated : related reader other) :
    related (SeekReader.seek reader) (SeekReader.seek other)
  skip_related {reader : ρ} {other : σ} (hrelated : related reader other) :
    related (skip reader) (skip other)
  commit_related {reader : ρ} {other : σ} (hrelated : related reader other) :
    related (commit reader) (commit other)
  reset_related {reader : ρ} {other : σ} (hrelated : related reader other) :
    related (reset reader) (otherReset other)

namespace CallSimulation

variable {ρ σ : Type} [SeekReader ρ] [SeekReader σ] {related : ρ → σ → Prop} {reset : ρ → ρ}
  {otherReset : σ → σ} (hsim : CallSimulation related reset otherReset)

include hsim

/-- No scan in the same context tells the readers apart. -/
theorem scanSimulation : ScanSimulation related Eq where
  current_alike hrelated _ := .inl (hsim.current_eq hrelated)
  atEnd_eq hrelated _ := hsim.atEnd_eq hrelated
  advance_related hrelated := hsim.advance_related hrelated
  seek_related hrelated _ := hsim.seek_related hrelated
  commit_related hrelated := hsim.commit_related hrelated
  clearTag_akin hsame := congrArg Context.clearTag hsame
  inString_eq hsame := congrArg Context.inString hsame
  toggle_akin hsame := by rw [hsame]

/-- Every single call keeps readers related. -/
theorem perform_related {reader : ρ} {other : σ} (hrelated : related reader other)
    (call : ReaderCall) : related (call.perform reset reader) (call.perform otherReset other) := by
  have hscan := hsim.scanSimulation
  cases call with
  | advance => exact hsim.advance_related hrelated
  | skip => exact hsim.skip_related hrelated
  | commit => exact hsim.commit_related hrelated
  | resetToken => exact hsim.reset_related hrelated
  | seek => exact hsim.seek_related hrelated
  | stringLiteral => exact hscan.finish_related hrelated
  | charLiteral => exact (hscan.probe_related hrelated).2
  | quotedOpening context => exact (hscan.readOpening_related hrelated context).reader_related
  | quotedClosing context =>
    exact (hscan.readClosing_related hsim.current_eq hrelated context).reader_related
  | quotedText context => exact (hscan.quotedText_related hrelated rfl).reader_related
  | comment context => exact (hscan.readComment_related hrelated rfl).reader_related
  | code context => exact (hscan.readCode_related hrelated rfl).reader_related
  | typeExpr context => exact (hscan.readType_related hrelated rfl).reader_related
  | payload context => exact (hscan.readPayload_related hrelated rfl).reader_related
  | scan requested context =>
    have hskipped : related (skipWhile isBlank reader) (skipWhile isBlank other) :=
      skipWhile_related related asciiOnly_isBlank (fun hhere ↦ .inl (hsim.current_eq hhere))
        hsim.atEnd_eq (fun hhere _ ↦ hsim.skip_related hhere) hrelated
    exact (hscan.scan_related requested hskipped rfl).reader_related

/-- Every run of calls keeps readers related. -/
theorem performAll_related {reader : ρ} {other : σ} (hrelated : related reader other)
    (calls : List ReaderCall) :
    related (ReaderCall.performAll reset reader calls)
      (ReaderCall.performAll otherReset other calls) := by
  induction calls generalizing reader other with
  | nil => exact hrelated
  | cons call calls ih => exact ih (hsim.perform_related hrelated call)

end CallSimulation

/-! ### Runs with their past -/

/-- A reader together with the states it has been in before, the latest first. -/
structure Traced (ρ : Type) where
  reader : ρ
  earlier : List ρ

namespace Traced

variable {ρ : Type}

/-- All the states up to the present one, the latest first. -/
def visited (traced : Traced ρ) : List ρ := traced.reader :: traced.earlier

/-- Goes on by one operation and remembers the state in front of it. -/
def record (operation : ρ → ρ) (traced : Traced ρ) : Traced ρ :=
  ⟨operation traced.reader, traced.visited⟩

instance [Reader ρ] : Reader (Traced ρ) where
  current traced := current traced.reader
  atEnd traced := atEnd traced.reader
  advance := record advance
  skip := record skip
  commit := record commit
  rest traced := rest traced.reader
  current_eq_headD traced := current_eq_headD traced.reader
  atEnd_eq_isEmpty traced := atEnd_eq_isEmpty traced.reader
  rest_advance traced := rest_advance traced.reader
  rest_skip traced := rest_skip traced.reader
  rest_commit traced := rest_commit traced.reader

-- A search in bulk would leave no trace of the characters that it passes.
instance [Reader ρ] : SeekReader (Traced ρ) where
  seek := seekStepwise
  rest_seek := rest_advanceWhile fun byte ↦ !isStringStop byte

end Traced

/-- The operation keeps the property, and leads to a state in the relation to the one before. -/
def OperationKeeps {ρ : Type} (holds : ρ → Prop) (follows : ρ → ρ → Prop) (operation : ρ → ρ) :
    Prop :=
  ∀ state, holds state → holds (operation state) ∧ follows (operation state) state

/-- Every operation of a reader keeps the property and leads to a state in the relation, which is
transitive. A search in bulk ends in the very state of the walk from character to character. -/
structure OperationsKeep {ρ : Type} [SeekReader ρ] (holds : ρ → Prop) (follows : ρ → ρ → Prop)
    (reset : ρ → ρ) : Prop where
  trans {last middle first : ρ} (hlast : follows last middle) (hmiddle : follows middle first) :
    follows last first
  seek_eq (state : ρ) (hholds : holds state) : SeekReader.seek state = seekStepwise state
  advance_keeps : OperationKeeps holds follows advance
  skip_keeps : OperationKeeps holds follows skip
  commit_keeps : OperationKeeps holds follows commit
  reset_keeps : OperationKeeps holds follows reset

/-- All the states of a traced reader have the property, and each of them is in the relation to all
the earlier ones. -/
structure PastKept {ρ : Type} (holds : ρ → Prop) (follows : ρ → ρ → Prop) (traced : Traced ρ) :
    Prop where
  holds_visited : ∀ state ∈ traced.visited, holds state
  pairwise_visited : traced.visited.Pairwise follows

namespace OperationsKeep

variable {ρ : Type} [SeekReader ρ] {holds : ρ → Prop} {follows : ρ → ρ → Prop} {reset : ρ → ρ}
  (hkeep : OperationsKeep holds follows reset)

include hkeep

/-- Going on by one operation keeps all of the past. -/
theorem record_pastKept {operation : ρ → ρ} (hoperation : OperationKeeps holds follows operation)
    {traced : Traced ρ} (hpast : PastKept holds follows traced) :
    PastKept holds follows (traced.record operation) := by
  have hpresent : holds traced.reader := hpast.holds_visited _ List.mem_cons_self
  obtain ⟨hholds, hfollows⟩ := hoperation traced.reader hpresent
  constructor
  · exact List.forall_mem_cons.mpr ⟨hholds, hpast.holds_visited⟩
  · refine List.pairwise_cons.mpr ⟨?_, hpast.pairwise_visited⟩
    -- The new state follows the present one, which follows all the earlier ones.
    refine List.forall_mem_cons.mpr ⟨hfollows, ?_⟩
    intro state hstate
    exact hkeep.trans hfollows (List.rel_of_pairwise_cons hpast.pairwise_visited hstate)

/-- A traced reader that advances follows the reader that it wraps, and its past is kept. -/
theorem readerSimulation : ReaderSimulation
    (fun (traced : Traced ρ) reader ↦ traced.reader = reader ∧ PastKept holds follows traced) where
  current_alike hrelated _ := .inl (congrArg current hrelated.1)
  atEnd_eq hrelated _ := congrArg atEnd hrelated.1
  advance_related hrelated :=
    ⟨congrArg advance hrelated.1, hkeep.record_pastKept hkeep.advance_keeps hrelated.2⟩
  commit_related hrelated :=
    ⟨congrArg commit hrelated.1, hkeep.record_pastKept hkeep.commit_keeps hrelated.2⟩

/-- A traced reader follows the reader that it wraps, and its past is kept. -/
theorem callSimulation :
    CallSimulation
      (fun (traced : Traced ρ) reader ↦ traced.reader = reader ∧ PastKept holds follows traced)
      (Traced.record reset) reset where
  current_eq hrelated := congrArg current hrelated.1
  atEnd_eq hrelated := congrArg atEnd hrelated.1
  advance_related hrelated := hkeep.readerSimulation.advance_related hrelated
  seek_related := by
    refine (hkeep.readerSimulation.seekSimulation ?_).seek_related
    rintro traced reader ⟨rfl, hpast⟩
    exact ⟨rfl, hkeep.seek_eq _ (hpast.holds_visited _ List.mem_cons_self)⟩
  skip_related hrelated :=
    ⟨congrArg skip hrelated.1, hkeep.record_pastKept hkeep.skip_keeps hrelated.2⟩
  commit_related hrelated := hkeep.readerSimulation.commit_related hrelated
  reset_related hrelated :=
    ⟨congrArg reset hrelated.1, hkeep.record_pastKept hkeep.reset_keeps hrelated.2⟩

/-- Assumes: a reader with a property that every operation keeps. Traced from there, a run of calls
ends where it ends without the trace, and all the states on the way have the property. -/
theorem performAll_traced {reader : ρ} (hholds : holds reader) (calls : List ReaderCall) :
    (ReaderCall.performAll (Traced.record reset) ⟨reader, []⟩ calls).reader =
        ReaderCall.performAll reset reader calls ∧
      PastKept holds follows
        (ReaderCall.performAll (Traced.record reset) ⟨reader, []⟩ calls) := by
  have hstart : PastKept holds follows (⟨reader, []⟩ : Traced ρ) :=
    ⟨List.forall_mem_singleton.mpr hholds, List.pairwise_singleton _ _⟩
  exact hkeep.callSimulation.performAll_related ⟨rfl, hstart⟩ calls

end OperationsKeep

end GrammarFragments
