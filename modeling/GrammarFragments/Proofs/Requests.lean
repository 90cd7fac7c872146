import Mathlib.Tactic.SplitIfs
import GrammarFragments.Proofs.Nesting.Endings
import GrammarFragments.Proofs.Spans.Placement

/-!
Asking for comments does not disturb the other kinds. The test for a comment passes a parenthesis
before it sees whether a star follows. If none does, the kinds other than comments are tried one
character late. To the groups that commit and to types such a parenthesis is a unit by itself, so
they reach the same state as if they had met it on their own (`run_enter_of_loneParen`,
`readType_of_loneParen`): the end that they commit in front of it is committed anew behind it.

Main statement: `scan_insert_comment`.
-/

set_option autoImplicit false
set_option relaxedAutoImplicit false

namespace GrammarFragments

open Reader

/-! ### One kind more or less -/

namespace Request

/-- The request that permits one kind less. -/
def erase (request : Request) (kind : FragmentKind) : Request := ⟨request.bits &&& ~~~kind.bit⟩

/-- A kind is permitted if the bit at its symbol number is set. -/
theorem permits_eq_getLsbD (request : Request) (kind : FragmentKind) :
    request.permits kind = request.bits.toBitVec.getLsbD kind.symbol := by
  have hbit : kind.bit.toBitVec = BitVec.twoPow 8 kind.symbol := by
    cases kind <;> rfl
  have hmask : (request.bits &&& kind.bit).toBitVec =
      if request.bits.toBitVec.getLsbD kind.symbol then kind.bit.toBitVec else 0#8 := by
    rw [UInt8.toBitVec_and, hbit, BitVec.and_twoPow]
  cases hset : request.bits.toBitVec.getLsbD kind.symbol with
  | false =>
    rw [hset, if_neg Bool.false_ne_true] at hmask
    have hzero : request.bits &&& kind.bit = 0 := UInt8.toBitVec_inj.mp hmask
    rw [permits, hzero]
    rfl
  | true =>
    rw [hset, if_pos rfl] at hmask
    rw [permits, UInt8.toBitVec_inj.mp hmask]
    cases kind <;> rfl

theorem permits_insert (request : Request) (kind other : FragmentKind) :
    (request.insert kind).permits other = (request.permits other || decide (other = kind)) := by
  have hbit : kind.bit.toBitVec.getLsbD other.symbol = decide (other = kind) := by
    cases kind <;> cases other <;> rfl
  rw [permits_eq_getLsbD, permits_eq_getLsbD, insert, UInt8.toBitVec_or, BitVec.getLsbD_or, hbit]

theorem permits_erase (request : Request) (kind other : FragmentKind) :
    (request.erase kind).permits other = (request.permits other && decide (other ≠ kind)) := by
  have hbit : (~~~kind.bit).toBitVec.getLsbD other.symbol = decide (other ≠ kind) := by
    cases kind <;> cases other <;> rfl
  rw [permits_eq_getLsbD, permits_eq_getLsbD, erase, UInt8.toBitVec_and, BitVec.getLsbD_and, hbit]

/-- Whether a kind is asked for has no bearing on the others. -/
theorem permits_insert_eq_erase (request : Request) {kind other : FragmentKind}
    (hother : other ≠ kind) :
    (request.insert kind).permits other = (request.erase kind).permits other := by
  rw [permits_insert, permits_erase, decide_eq_false hother, decide_eq_true hother, Bool.or_false,
    Bool.and_true]

end Request

/-! ### A parenthesis that opens no comment -/

section LoneParen

variable {ρ : Type}

/-- The reader is in front of a parenthesis that no star follows. -/
structure LoneParen [Reader ρ] (reader : ρ) : Prop where
  paren : current reader = Ascii.parenOpen
  no_star : current (advance reader) ≠ Ascii.star

/-- A parenthesis that starts a text other than a comment has no star behind it. -/
theorem LoneParen.of_not_comment [Reader ρ] {reader : ρ}
    (hparen : current reader = Ascii.parenOpen)
    (hplain : ¬ [Ascii.parenOpen, Ascii.star] <+: rest reader) : LoneParen reader := by
  refine ⟨hparen, fun hstar ↦ hplain ⟨rest (advance (advance reader)), ?_⟩⟩
  rw [← cons_rest_advance hparen (by decide), ← cons_rest_advance hstar (by decide)]
  rfl

theorem LoneParen.atEnd_eq_false [Reader ρ] {reader : ρ} (hlone : LoneParen reader) :
    atEnd reader = false := by
  refine atEnd_eq_false_of_current_ne_zero ?_
  rw [hlone.paren]
  decide

variable [SeekReader ρ]

/-- In every group a parenthesis that no star follows is a unit by itself. -/
theorem Enclosure.turn_of_loneParen (group : Enclosure) {reader : ρ} (context : Context)
    (hstar : current reader ≠ Ascii.star) :
    group.turn Ascii.parenOpen reader context = .unit none reader context := by
  have hcommon : group.commonTurn Ascii.parenOpen reader context = .unit none reader context := by
    rw [commonTurn, if_pos rfl, if_neg hstar]
  cases group with
  | comment => exact hcommon
  | code => exact hcommon
  | bracket => exact hcommon

/-- A type passes it and goes on. -/
theorem readType_of_loneParen {reader : ρ} (context : Context) (hlone : LoneParen reader) :
    readType reader context = readType (advance reader) context := by
  have hend := hlone.atEnd_eq_false
  have hgreater : current reader ≠ Ascii.greater := by
    rw [hlone.paren]
    decide
  have hunit : passTypeUnit reader context = (advance reader, context) := by
    simp only [passTypeUnit, if_pos hlone.paren, readComment, if_neg hlone.no_star]
  rw [readType, if_neg (by rw [hend]; exact Bool.false_ne_true), if_neg hgreater, hunit]

end LoneParen

/-- Assumes: a group that commits. It passes the parenthesis and commits behind it, which it also
does when it is entered there. -/
theorem run_enter_of_loneParen {group : Enclosure} (hcommits : group.commits = true)
    {reader : ByteReader} (context : Context) (hlone : LoneParen reader) :
    (Nesting.enter group [] reader context).run =
      (Nesting.enter group [] (advance reader) context).run := by
  have hend : atEnd (commit reader) = false := hlone.atEnd_eq_false
  have hentered : ∀ other : ByteReader, Nesting.enter group [] other context =
      ⟨group, [], none, commit other, context⟩ := by
    intro other
    rw [Nesting.enter, Enclosure.mark, if_pos hcommits]
  have hnext : (Nesting.mk group [] none (commit reader) context).next? =
      some Ascii.parenOpen := by
    simp only [Nesting.next?, hend, Bool.false_eq_true, if_false]
    exact congrArg some hlone.paren
  have hturn : group.turn Ascii.parenOpen (advance (commit reader)) context =
      .unit none (advance (commit reader)) context :=
    group.turn_of_loneParen context hlone.no_star
  rw [hentered, hentered, Nesting.run_of_step_eq_more (Nesting.step_of_turn_eq_unit hnext hturn),
    Nesting.afterUnit, if_neg (Option.some_ne_none _).symm, Enclosure.mark, if_pos hcommits]
  -- The last commitment is the one that counts.
  rfl

/-! ### Attempts -/

namespace Attempt

/-- The kinds other than comments are tried in the same way for requests that agree on them. -/
theorem afterComment_congr {ρ : Type} [SeekReader ρ] {requested other : Request}
    (hsame : ∀ kind, kind ≠ .comment → requested.permits kind = other.permits kind)
    (first : UInt8) (reader : ρ) (context : Context) :
    afterComment requested first reader context = afterComment other first reader context := by
  simp only [afterComment, hsame .code (by decide), hsame .typeExpr (by decide),
    hsame .payload (by decide), hsame .quoteMark (by decide)]

/-- The attempts find the same and remember the same, and if they find something they leave the same
reader. -/
structure SameFinding {ρ : Type} (attempt other : Attempt ρ) : Prop where
  kind_eq : attempt.kind? = other.kind?
  context_eq : attempt.context = other.context
  reader_eq : attempt.kind?.isSome = true → attempt.reader = other.reader

/-- The kinds other than comments find the same behind a parenthesis as in front of it. -/
theorem sameFinding_of_loneParen (requested : Request) {reader : ByteReader} (context : Context)
    (hlone : LoneParen reader) :
    SameFinding (afterComment requested (current reader) (advance reader) context)
      (afterComment requested (current reader) reader context) := by
  have hquote : ¬ (requested.permits .quoteMark ∧ current reader = Ascii.doubleQuote) := by
    rintro ⟨-, hquote⟩
    exact absurd (hlone.paren.symm.trans hquote) (by decide)
  unfold afterComment
  split_ifs with hcode htype hpayload
  · rw [readCode, readCode, run_enter_of_loneParen rfl context hlone]
    exact ⟨rfl, rfl, fun _ ↦ rfl⟩
  · rw [readType_of_loneParen context hlone]
    exact ⟨rfl, rfl, fun _ ↦ rfl⟩
  · rw [readPayload, readPayload, run_enter_of_loneParen rfl context hlone]
    exact ⟨rfl, rfl, fun _ ↦ rfl⟩
  · exact ⟨rfl, rfl, fun hfound ↦ absurd hfound Bool.false_ne_true⟩

/-- Asked for comments, a scan outside of strings tries the other kinds behind the parenthesis. -/
theorem start_of_loneParen {requested : Request} {reader : ByteReader} {context : Context}
    (hpermits : requested.permits .comment = true) (houtside : context.inString = false)
    (hlone : LoneParen reader) :
    start requested reader context =
      afterComment requested (current reader) (advance reader) context := by
  simp only [start, if_pos (And.intro houtside (And.intro hpermits hlone.paren)),
    if_neg hlone.no_star]

/-- Assumes: requests that agree on the kinds other than comments, of which only the first permits
comments, and a text that is no comment, unless the scan is inside of a grammar-level string. -/
theorem sameFinding_start {asked unasked : Request}
    (hsame : ∀ kind, kind ≠ .comment → asked.permits kind = unasked.permits kind)
    (hasked : asked.permits .comment = true) (hunasked : unasked.permits .comment = false)
    {reader : ByteReader} {context : Context}
    (hplain : ¬ (context.inString = false ∧ [Ascii.parenOpen, Ascii.star] <+: rest reader)) :
    SameFinding (start asked reader context) (start unasked reader context) := by
  rw [start_of_not_comment (not_comment_of_permits hunasked), ← afterComment_congr hsame]
  by_cases hcomment : context.inString = false ∧ asked.permits .comment = true ∧
      current reader = Ascii.parenOpen
  · have hlone := LoneParen.of_not_comment hcomment.2.2 fun hstarts ↦ hplain ⟨hcomment.1, hstarts⟩
    rw [start_of_loneParen hasked hcomment.1 hlone]
    exact sameFinding_of_loneParen asked context hlone
  · rw [start_of_not_comment hcomment]
    exact ⟨rfl, rfl, fun _ ↦ rfl⟩

/-- Assumes: nothing committed yet. A parenthesis that the test for a comment has passed lies in
front of the end of the token, whatever is tried behind it. -/
theorem lt_tokenEnd_of_loneParen {requested : Request} {reader : ByteReader} {context : Context}
    (hpermits : requested.permits .comment = true) (houtside : context.inString = false)
    (hlone : LoneParen reader) (hnone : reader.committed = none) :
    reader.offset < (start requested reader context).reader.tokenEnd := by
  -- A token that started right behind the parenthesis would be in order, too.
  have hsim := ScanSimulation.ofInvariant
    (fun other : ByteReader ↦ TokenInOrder { other with tokenStart := reader.offset + 1 })
    (fun _ ↦ True) (fun _ horder ↦ horder.advance_inOrder) (fun _ horder ↦ horder.seek_inOrder)
    (fun _ horder ↦ horder.commit_inOrder) (fun _ _ ↦ trivial) (fun _ _ ↦ trivial)
  have hpassed : TokenInOrder { advance reader with tokenStart := reader.offset + 1 } := by
    refine ⟨Source.lt_next (ByteReader.atEnd_eq_false_iff.mp hlone.atEnd_eq_false), ?_⟩
    intro stop hstop
    exact absurd (hnone.symm.trans hstop) (Option.some_ne_none stop).symm
  have hafter := hsim.afterComment_related requested (Alike.refl (current reader)) ⟨rfl, hpassed⟩
    (⟨rfl, trivial⟩ : context = context ∧ True)
  rw [start_of_loneParen hpermits houtside hlone]
  exact hafter.reader_related.2.start_le_tokenEnd

end Attempt

/-- Assumes: a source, read from any offset, whose text behind the blanks does not start with `(*`,
unless the scan is inside of a grammar-level string. A scan that is asked for comments, too, finds
the same kind as one that is not, or neither finds one, and they remember the same. If they find one
they leave the same reader: the same position and the same token. The token starts with a
parenthesis that the test for a comment has passed, and if the source is held as a whole it ends
behind it. -/
theorem scan_insert_comment (source : Source) (offset : Nat) (requested : Request)
    (context : Context)
    (hplain : ¬ (context.inString = false ∧ [Ascii.parenOpen, Ascii.star] <+:
      source.charsFrom (source.afterBlanks (min offset source.size)))) :
    let first := source.afterBlanks (min offset source.size)
    let asked := scan (requested.insert .comment) (source.readerAt offset) context
    let unasked := scan (requested.erase .comment) (source.readerAt offset) context
    asked.kind = unasked.kind ∧ asked.context = unasked.context ∧
      (asked.kind.isSome = true → asked.reader = unasked.reader) ∧
      (context.inString = false → source.byteAt first = Ascii.parenOpen →
        asked.reader.tokenStart = first ∧ (source.Fits → first < asked.reader.tokenEnd)) := by
  intro first asked unasked
  have hskipped : skipWhile isBlank (source.readerAt offset) = ⟨source, first, first, none, none⟩ :=
    source.skipWhile_readerAt offset
  have hasked : (requested.insert .comment).permits .comment = true := by
    rw [Request.permits_insert, decide_eq_true rfl, Bool.or_true]
  have hunasked : (requested.erase .comment).permits .comment = false := by
    rw [Request.permits_erase, decide_eq_false (not_not_intro rfl), Bool.and_false]
  have hsame : Attempt.SameFinding
      (.start (requested.insert .comment) (skipWhile isBlank (source.readerAt offset)) context)
      (.start (requested.erase .comment) (skipWhile isBlank (source.readerAt offset)) context) := by
    refine Attempt.sameFinding_start (fun kind ↦ requested.permits_insert_eq_erase) hasked
      hunasked ?_
    rw [hskipped]
    exact hplain
  refine ⟨hsame.kind_eq, hsame.context_eq, hsame.reader_eq, ?_⟩
  intro houtside hparen
  refine ⟨(tokenAt_scan source offset _ context).tokenStart_eq, fun _ ↦ ?_⟩
  have hlone : LoneParen (ByteReader.mk source first first none none) :=
    .of_not_comment hparen fun hstarts ↦ hplain ⟨houtside, hstarts⟩
  have hlt : first < (Attempt.start (requested.insert .comment)
      (ByteReader.mk source first first none none) context).reader.tokenEnd :=
    Attempt.lt_tokenEnd_of_loneParen hasked houtside hlone rfl
  rw [← hskipped] at hlt
  exact hlt

/-- Code behind a blank that starts with a parenthesis. Its closer is first passed by a probe for a
character literal and handed back. -/
theorem scan_insert_comment_witness :
    let source := Source.mk " ('\x7d"
    let asked := scan (Request.mk 5) (source.readerAt 0) .initial
    let unasked := scan (Request.mk 4) (source.readerAt 0) .initial
    asked.kind = some .code ∧ unasked.kind = some .code ∧ asked.reader = unasked.reader ∧
      asked.reader.tokenStart = 1 ∧ 1 < asked.reader.tokenEnd := by
  intro source asked unasked
  have hfirst : source.afterBlanks (min 0 source.size) = 1 := by decide +kernel
  have hplain : ¬ [Ascii.parenOpen, Ascii.star] <+: source.charsFrom 1 := by decide +kernel
  have hfound : asked.kind = some .code := by decide +kernel
  obtain ⟨hkind, -, hreader, hparen⟩ := scan_insert_comment source 0 ⟨4⟩ .initial (by
    rw [hfirst]
    exact fun hcomment ↦ hplain hcomment.2)
  rw [hfirst] at hparen
  have hfits : source.Fits := by decide +kernel
  obtain ⟨hstart, hbehind⟩ := hparen rfl (by decide +kernel)
  exact ⟨hfound, hkind.symm.trans hfound, hreader (Option.isSome_of_eq_some hfound), hstart,
    hbehind hfits⟩

end GrammarFragments
