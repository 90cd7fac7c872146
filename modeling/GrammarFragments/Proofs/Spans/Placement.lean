import GrammarFragments.Proofs.Attempts
import GrammarFragments.Proofs.Nesting.Frames
import GrammarFragments.Proofs.Spans.Boundaries

/-!
Where a fragment lies in its source. If the source fits, the fragment starts at the first byte that
is no blank and ends between characters, inside of the text, wherever the scan began, be it inside
of a character.

A scan that begins inside of a character commits there, because code and payloads commit as soon as
they are entered. But the bytes up to the next character are units of their own, and after each of
them the end of the token is committed anew, so by the time a closer is found the end has come to
lie between characters (`run_aligned`). Types commit only in front of the character that ends them.
In any source, the offsets that a scan leaves lie inside of what is held (`inRange_scan`).

Main statement: `scanAt_span`. A source that does not fit may be cut inside of a character
(`Source.cutArrow`). There a scan comes upon an offset that is out of range, and what 32 bits keep
of it lies in front of the token (`scanAt_end_wraps_around`).
-/

set_option autoImplicit false
set_option relaxedAutoImplicit false

namespace GrammarFragments

open Reader

/-! ### Blanks in front of the token -/

/-- Assumes: a class of ASCII bytes. From a token that starts where the reader stands, skipping a
run of the class leads to the first byte outside of it, and the token starts there. -/
theorem skipWhile_eq_find {accept : UInt8 → Bool} (haccept : AsciiOnly accept) (source : Source)
    (offset : Nat) (committed overflow : Option Nat) :
    let first := source.find (fun byte ↦ !accept byte) offset
    skipWhile accept (ByteReader.mk source offset offset committed overflow) =
      ByteReader.mk source first first committed overflow := by
  intro first
  fun_induction Source.find source (fun byte ↦ !accept byte) offset with
  | case1 offset hoffset hstop =>
    have hbyte : accept (source.byteAt offset) = false := by simpa using hstop
    exact skipWhile_of_refused hbyte
  | case2 offset hoffset hstop ih =>
    have hbyte : accept (source.byteAt offset) = true := by simpa using hstop
    have hascii := haccept.isAscii_of_accept hbyte
    have hskip : skip (ByteReader.mk source offset offset committed overflow) =
        ByteReader.mk source (offset + 1) (offset + 1) committed overflow := by
      change ByteReader.mk source (source.next offset) (source.next offset) committed
        (overflow.or (source.overflow? offset)) = _
      rw [Source.next_eq_succ_of_isAscii hoffset hascii,
        Source.overflow?_of_isAscii hoffset hascii, Option.or_none]
    rw [skipWhile, ByteReader.atEnd_eq_false_iff.mpr hoffset, if_neg Bool.false_ne_true,
      ByteReader.current_eq_byteAt, if_pos hbyte, hskip, ih]
  | case3 offset hoffset =>
    rw [skipWhile, if_pos (ByteReader.atEnd_iff.mpr (Nat.not_lt.mp hoffset))]

namespace Source

/-- The offset of the first byte at or after `offset` that is no blank, or the end of the text. -/
def afterBlanks (source : Source) (offset : Nat) : Nat :=
  source.find (fun byte ↦ !isBlank byte) offset

variable {source : Source} {offset : Nat}

theorem le_afterBlanks : offset ≤ source.afterBlanks offset := source.le_find _ offset

theorem afterBlanks_le (hoffset : offset ≤ source.size) :
    source.afterBlanks offset ≤ source.size :=
  find_le hoffset

theorem afterBlanks_of_not_isBlank (hbyte : isBlank (source.byteAt offset) = false) :
    source.afterBlanks offset = offset := by
  refine find_of_stop ?_
  rw [hbyte, Bool.not_false]

theorem isBlank_of_lt_afterBlanks {passed : Nat} (hle : offset ≤ passed)
    (hlt : passed < source.afterBlanks offset) : isBlank (source.byteAt passed) = true := by
  have hpassed := stop_eq_false_of_lt_find hle hlt
  simpa using hpassed

theorem isBlank_byteAt_afterBlanks (hlt : source.afterBlanks offset < source.size) :
    isBlank (source.byteAt (source.afterBlanks offset)) = false := by
  have hstop := stop_byteAt_find hlt
  simpa [afterBlanks] using hstop

/-- Blanks are whole characters, so the first byte after them starts a character, unless the search
has begun at that byte. -/
theorem IsBoundary.afterBlanks (hboundary : source.IsBoundary offset) (hfits : source.Fits) :
    source.IsBoundary (source.afterBlanks offset) := by
  rcases Nat.eq_or_lt_of_le (le_afterBlanks : offset ≤ source.afterBlanks offset) with
    hsame | hpassed
  · rw [← hsame]
    exact hboundary
  · obtain ⟨last, hlast⟩ : ∃ last, source.afterBlanks offset = last + 1 :=
      ⟨source.afterBlanks offset - 1, by omega⟩
    have hle := afterBlanks_le (hboundary.le_size hfits)
    have hsize : last < source.size := by omega
    have hblank : isBlank (source.byteAt last) = true :=
      isBlank_of_lt_afterBlanks (show offset ≤ last by omega) (by omega)
    have hascii := asciiOnly_isBlank.isAscii_of_accept hblank
    rw [hlast, ← next_eq_succ_of_isAscii hsize hascii]
    exact (isBoundary_of_isAscii hsize hascii).next hfits

/-- A source is scanned from its first byte at or after the offset that is no blank. -/
theorem skipWhile_readerAt (source : Source) (offset : Nat) :
    let first := source.afterBlanks (min offset source.size)
    skipWhile isBlank (source.readerAt offset) = ByteReader.mk source first first none none :=
  skipWhile_eq_find asciiOnly_isBlank source (min offset source.size) none none

end Source

/-! ### Runs that begin inside of a character -/

/-- A character outside of ASCII is a unit by itself in every group. -/
theorem Enclosure.turn_of_le {ρ : Type} [SeekReader ρ] (group : Enclosure) {byte : UInt8}
    (hbyte : 0x80 ≤ byte) (reader : ρ) (context : Context) :
    group.turn byte reader context = .unit none reader context := by
  have hne : ∀ ascii, isAscii ascii = true → byte ≠ ascii := ne_ascii_of_le hbyte
  have hcommon : group.commonTurn byte reader context = .unit none reader context := by
    rw [commonTurn, if_neg (hne Ascii.parenOpen rfl), if_neg (hne Ascii.apostrophe rfl),
      if_neg (hne Ascii.doubleQuote rfl), asciiOnly_isWordStart byte hbyte,
      if_neg Bool.false_ne_true]
  cases group with
  | comment =>
    rw [turn, commentTurn, if_neg (fun hclose ↦ hne Ascii.star rfl hclose.1),
      if_neg (hne Ascii.braceOpen rfl), hcommon]
  | code =>
    rw [turn, codeTurn, if_neg (hne Ascii.braceClose rfl), if_neg (hne Ascii.braceOpen rfl),
      if_neg (fun hhold ↦ hne Ascii.percent rfl hhold.1), hcommon]
  | bracket =>
    rw [turn, bracketTurn, if_neg (hne Ascii.bracketClose rfl), if_neg (hne Ascii.bracketOpen rfl),
      hcommon]

/-- Assumes: a reader in front of a character outside of ASCII. The group passes the character and
commits after it, if it commits at all. -/
theorem Nesting.step_of_le {ρ : Type} [SeekReader ρ] {nesting : Nesting ρ}
    (hpending : nesting.pending = none) (hend : atEnd nesting.reader = false)
    (hbyte : 0x80 ≤ current nesting.reader) :
    nesting.step = .more { nesting with
      pending := none, reader := nesting.group.mark (advance nesting.reader) } := by
  have hnext : nesting.next? = some (current nesting.reader) := by
    simp only [next?, hpending, hend, Bool.false_eq_true, if_false]
  have htake : nesting.takeNext = advance nesting.reader := by
    simp only [takeNext, hpending]
  have hturn := nesting.group.turn_of_le hbyte nesting.takeNext nesting.context
  rw [step_of_turn_eq_unit hnext hturn, afterUnit, if_neg (Option.some_ne_none _).symm, htake]

/-- Assumes: a group that commits and has just done so, anywhere in a text that fits. When its run
ends, reader and token stand between characters. -/
theorem Nesting.run_aligned {nesting : Nesting ByteReader} (hfits : nesting.reader.source.Fits)
    (hpending : nesting.pending = none)
    (hcommits : nesting.group.commits = true)
    (hcommitted : nesting.reader.committed = some nesting.reader.offset)
    (hle : nesting.reader.offset ≤ nesting.reader.source.size) :
    nesting.run.reader.Aligned := by
  -- The bytes that are left of a character are passed one at a time; the induction is on the bytes
  -- up to the end of the text, which is a boundary.
  induction hleft : nesting.reader.source.size - nesting.reader.offset using Nat.strongRecOn
    generalizing nesting with
  | ind left ih =>
    by_cases hboundary : nesting.reader.source.IsBoundary nesting.reader.offset
    · refine run_holds ByteReader.Aligned (fun _ haligned ↦ haligned.advance_aligned)
        (fun _ haligned ↦ haligned.seek_aligned) (fun _ haligned ↦ haligned.commit_aligned)
        ⟨hfits, hboundary, ?_⟩
      intro stop hstop
      rw [hcommitted, Option.some.injEq] at hstop
      rw [← hstop]
      exact hboundary
    · have hlt := Source.lt_size_of_not_isBoundary hfits hle hboundary
      have hend := ByteReader.atEnd_eq_false_iff.mpr hlt
      have hbyte := Source.le_byteAt_of_not_isBoundary hlt hboundary
      have hpassed := Source.lt_next hlt
      rw [run_of_step_eq_more (step_of_le hpending hend hbyte), Enclosure.mark, if_pos hcommits]
      refine ih _ ?_ hfits rfl hcommits rfl (Source.next_le hlt) rfl
      change nesting.reader.source.size - nesting.reader.source.next nesting.reader.offset < left
      omega

/-- Code and payloads, which commit when they are entered, end between characters wherever they are
entered. -/
theorem Nesting.run_enter_aligned {group : Enclosure} (hcommits : group.commits = true)
    {reader : ByteReader} (context : Context) (hfits : reader.source.Fits)
    (hle : reader.offset ≤ reader.source.size) :
    (enter group [] reader context).run.reader.Aligned := by
  have hmark : (enter group [] reader context).reader = commit reader := by
    rw [enter, Enclosure.mark, if_pos hcommits]
  refine run_aligned ?_ rfl hcommits ?_ ?_
  · rw [hmark]
    exact hfits
  · rw [hmark]
    rfl
  · rw [hmark]
    exact hle

/-! ### The end of the token -/

/-- A reader in front of an ASCII character other than zero stands between characters. -/
theorem ByteReader.isBoundary_of_current_eq {reader : ByteReader} {ascii : UInt8}
    (hcurrent : current reader = ascii) (hascii : isAscii ascii = true) (hzero : ascii ≠ 0) :
    reader.source.IsBoundary reader.offset := by
  have hend : atEnd reader = false := by
    refine atEnd_eq_false_of_current_ne_zero ?_
    rw [hcurrent]
    exact hzero
  refine Source.isBoundary_of_isAscii (atEnd_eq_false_iff.mp hend) ?_
  rw [← current_eq_byteAt, hcurrent]
  exact hascii

/-- A type that is found complete ends in front of a `>`. -/
theorem readType_eq_commit {ρ : Type} [SeekReader ρ] {reader : ρ} {context : Context}
    (hmatched : (readType reader context).matched = true) :
    ∃ stopped, current stopped = Ascii.greater ∧
      (readType reader context).reader = commit stopped := by
  fun_induction readType reader context with
  | case1 reader context hend => exact absurd hmatched Bool.false_ne_true
  | case2 reader context hend hgreater => exact ⟨reader, hgreater, rfl⟩
  | case3 reader context hend hgreater passed ih => exact ih hmatched

theorem inside_of_entered {reader entered : ByteReader} (hfits : reader.source.Fits)
    (hentered : Attempt.Entered reader entered) (hle : reader.offset ≤ reader.source.size) :
    entered.source.Fits ∧ entered.offset ≤ entered.source.size := by
  cases hentered with
  | here => exact ⟨hfits, hle⟩
  | afterParen hparen =>
    have hboundary := ByteReader.isBoundary_of_current_eq hparen rfl (by decide)
    exact ⟨hfits, (hboundary.next hfits).le_size hfits⟩

theorem fits_readType {reader : ByteReader} (hfits : reader.source.Fits) (context : Context) :
    (readType reader context).reader.source.Fits := by
  have hsim := Simulation.ofInvariant (fun reader : ByteReader ↦ reader.source.Fits) (fun _ ↦ True)
    (fun _ hhere ↦ hhere) (fun _ hhere ↦ hhere) (fun _ hhere ↦ hhere) fun _ _ ↦ trivial
  exact (hsim.readType_related ⟨rfl, hfits⟩
    (⟨rfl, trivial⟩ : context = context ∧ True)).reader_related.2

/-- Assumes: an attempt, from inside of a text that fits, with nothing committed yet, that finds a
fragment. The reader and the end of the token lie between characters. -/
theorem aligned_of_tried {requested : Request} {reader : ByteReader} {context : Context}
    {attempt : Attempt ByteReader} {kind : FragmentKind} (hfits : reader.source.Fits)
    (htried : Attempt.Tried requested reader context attempt) (hkind : attempt.kind? = some kind)
    (hle : reader.offset ≤ reader.source.size) (hnone : reader.committed = none) :
    attempt.reader.Aligned := by
  have hfresh : ∀ {ascii : UInt8}, current reader = ascii → isAscii ascii = true → ascii ≠ 0 →
      reader.Aligned := by
    intro ascii hcurrent hascii hzero
    refine ⟨hfits, ByteReader.isBoundary_of_current_eq hcurrent hascii hzero, ?_⟩
    intro stop hstop
    rw [hnone] at hstop
    cases hstop
  cases htried with
  | comment houtside hpermits hparen hstar =>
    have hsim := Simulation.ofInvariant ByteReader.Aligned (fun _ ↦ True)
      (fun _ haligned ↦ haligned.advance_aligned) (fun _ haligned ↦ haligned.seek_aligned)
      (fun _ haligned ↦ haligned.commit_aligned) fun _ _ ↦ trivial
    have haligned := hfresh hparen rfl (by decide)
    have hafter := hsim.ofComment_related ⟨rfl, haligned.advance_aligned⟩
      (⟨rfl, trivial⟩ : context = context ∧ True)
    exact hafter.reader_related.2
  | code hentered hpermits | payload hentered hpermits =>
    obtain ⟨hthere, hinside⟩ := inside_of_entered hfits hentered hle
    exact Nesting.run_enter_aligned rfl context hthere hinside
  | typeExpr hentered hpermits =>
    obtain ⟨stopped, hgreater, hreader⟩ :=
      readType_eq_commit (Attempt.kind?_ofOutcome_eq_some hkind).2
    have hthere := fits_readType (inside_of_entered hfits hentered hle).1 context
    have hboundary := ByteReader.isBoundary_of_current_eq hgreater rfl (by decide)
    rw [hreader] at hthere
    rw [Attempt.ofOutcome, hreader]
    refine ⟨hthere, hboundary, ?_⟩
    intro stop hstop
    cases hstop
    exact hboundary
  | quoteMark hpermits hquote =>
    exact (hfresh hquote rfl (by decide)).advance_aligned.commit_aligned
  | nothing hentered => cases hkind

/-- The token of such an attempt ends between characters. -/
theorem tokenEnd_boundary_of_tried {requested : Request} {reader : ByteReader} {context : Context}
    {attempt : Attempt ByteReader} {kind : FragmentKind} (hfits : reader.source.Fits)
    (htried : Attempt.Tried requested reader context attempt) (hkind : attempt.kind? = some kind)
    (hle : reader.offset ≤ reader.source.size) (hnone : reader.committed = none) :
    attempt.reader.source.IsBoundary attempt.reader.tokenEnd :=
  (aligned_of_tried hfits htried hkind hle hnone).tokenEnd_boundary

/-! ### The start of the token -/

/-- At the end of the text every group is abandoned as it is entered. -/
theorem run_enter_of_atEnd {ρ : Type} [SeekReader ρ] (group : Enclosure) {reader : ρ}
    (context : Context) (hend : atEnd reader = true) :
    (Nesting.enter group [] reader context).run = ⟨false, group.mark reader, context⟩ := by
  have hnext : (Nesting.enter group [] reader context).next? = none := by
    simp only [Nesting.next?, Nesting.enter, group.atEnd_mark, hend, if_true]
  exact Nesting.run_of_step_eq_done (Nesting.step_of_next?_eq_none hnext)

/-- At the end of the text nothing is found. -/
theorem kind?_of_atEnd {ρ : Type} [SeekReader ρ] {requested : Request} {reader : ρ}
    {context : Context} {attempt : Attempt ρ} (hend : atEnd reader = true)
    (htried : Attempt.Tried requested reader context attempt) : attempt.kind? = none := by
  have hzero := current_eq_zero hend
  have hentered : ∀ {entered : ρ}, Attempt.Entered reader entered → entered = reader := by
    intro entered hentered
    cases hentered with
    | here => rfl
    | afterParen hparen => exact absurd (hzero.symm.trans hparen) (by decide)
  have hfailed : ∀ (kind : FragmentKind) (outcome : Outcome ρ), outcome.matched = false →
      (Attempt.ofOutcome kind outcome).kind? = none := by
    intro kind outcome hmatched
    rw [Attempt.ofOutcome, hmatched, Attempt.kind?]
  cases htried with
  | comment houtside hpermits hparen hstar => exact absurd (hzero.symm.trans hparen) (by decide)
  | code hcode hpermits =>
    rw [hentered hcode]
    exact hfailed .code _ (congrArg Outcome.matched (run_enter_of_atEnd .code context hend))
  | typeExpr htype hpermits =>
    rw [hentered htype, readType, if_pos hend]
    exact hfailed .typeExpr _ rfl
  | payload hpayload hpermits =>
    rw [hentered hpayload]
    exact hfailed .payload _ (congrArg Outcome.matched (run_enter_of_atEnd .bracket context hend))
  | quoteMark hpermits hquote => exact absurd (hzero.symm.trans hquote) (by decide)
  | nothing hnothing => rfl

/-- The token under construction lies in the given source, starts at the given offset, and does not
end before it starts. -/
structure TokenAt (source : Source) (first : Nat) (reader : ByteReader) : Prop
    extends TokenInOrder reader where
  source_eq : reader.source = source
  tokenStart_eq : reader.tokenStart = first

/-- A token that starts where its reader stands, with no end committed. -/
theorem tokenAt_uncommitted (source : Source) (first : Nat) (overflow : Option Nat) :
    TokenAt source first ⟨source, first, first, none, overflow⟩ :=
  ⟨⟨Nat.le_refl _, fun _ hstop ↦ absurd hstop (Option.not_mem_none _)⟩, rfl, rfl⟩

theorem TokenAt.advance_tokenAt {source : Source} {first : Nat} {reader : ByteReader}
    (htoken : TokenAt source first reader) : TokenAt source first (advance reader) :=
  { htoken.advance_inOrder with
    source_eq := htoken.source_eq, tokenStart_eq := htoken.tokenStart_eq }

theorem TokenAt.seek_tokenAt {source : Source} {first : Nat} {reader : ByteReader}
    (htoken : TokenAt source first reader) : TokenAt source first (SeekReader.seek reader) :=
  { htoken.seek_inOrder with
    source_eq := htoken.source_eq, tokenStart_eq := htoken.tokenStart_eq }

theorem TokenAt.commit_tokenAt {source : Source} {first : Nat} {reader : ByteReader}
    (htoken : TokenAt source first reader) : TokenAt source first (commit reader) :=
  { htoken.commit_inOrder with
    source_eq := htoken.source_eq, tokenStart_eq := htoken.tokenStart_eq }

theorem TokenInOrder.start_le_tokenEnd {reader : ByteReader} (horder : TokenInOrder reader) :
    reader.tokenStart ≤ reader.tokenEnd := by
  unfold ByteReader.tokenEnd
  cases hcommitted : reader.committed with
  | none => exact horder.start_le_offset
  | some stop => exact horder.start_le_committed stop hcommitted

/-- A scan of a source leaves a token that starts after the blanks. -/
theorem tokenAt_scan (source : Source) (offset : Nat) (requested : Request) (context : Context) :
    TokenAt source (source.afterBlanks (min offset source.size))
      (scan requested (source.readerAt offset) context).reader := by
  refine scan_keeps_reader (TokenAt source _) (fun _ ↦ TokenAt.advance_tokenAt)
    (fun _ ↦ TokenAt.seek_tokenAt) (fun _ ↦ TokenAt.commit_tokenAt) requested _ context ?_
  rw [Source.skipWhile_readerAt]
  exact tokenAt_uncommitted source _ none

/-- The offset and the bounds of the token lie in what is held of the source, so all of them are
numbers of 32 bits, be the text cut or not. -/
structure ByteReader.InRange (source : Source) (reader : ByteReader) : Prop where
  source_eq : reader.source = source
  offset_le : reader.offset ≤ source.size
  tokenStart_le : reader.tokenStart ≤ source.size
  committed_le : ∀ stop ∈ reader.committed, stop ≤ source.size

namespace ByteReader.InRange

variable {source : Source} {reader : ByteReader}

theorem advance_inRange (hinside : InRange source reader) : InRange source (advance reader) := by
  obtain ⟨rfl, hoffset, hstart, hcommitted⟩ := hinside
  exact ⟨rfl, Source.next_le_size hoffset, hstart, hcommitted⟩

theorem seek_inRange (hinside : InRange source reader) :
    InRange source (SeekReader.seek reader) := by
  obtain ⟨rfl, hoffset, hstart, hcommitted⟩ := hinside
  exact ⟨rfl, Source.find_le hoffset, hstart, hcommitted⟩

theorem commit_inRange (hinside : InRange source reader) : InRange source (commit reader) := by
  refine ⟨hinside.source_eq, hinside.offset_le, hinside.tokenStart_le, fun stop hstop ↦ ?_⟩
  obtain rfl : reader.offset = stop := Option.some.inj hstop
  exact hinside.offset_le

theorem tokenEnd_le (hinside : InRange source reader) : reader.tokenEnd ≤ source.size := by
  unfold ByteReader.tokenEnd
  cases hcommitted : reader.committed with
  | none => exact hinside.offset_le
  | some stop => exact hinside.committed_le stop hcommitted

end ByteReader.InRange

/-- A scan of a source never leads past its end. -/
theorem inRange_scan (source : Source) (offset : Nat) (requested : Request) (context : Context) :
    ByteReader.InRange source (scan requested (source.readerAt offset) context).reader := by
  refine scan_keeps_reader (ByteReader.InRange source) (fun _ ↦ ByteReader.InRange.advance_inRange)
    (fun _ ↦ ByteReader.InRange.seek_inRange) (fun _ ↦ ByteReader.InRange.commit_inRange)
    requested _ context ?_
  rw [Source.skipWhile_readerAt]
  have hle := Source.afterBlanks_le (Nat.min_le_right offset source.size)
  exact ⟨rfl, hle, hle, fun _ hstop ↦ absurd hstop (Option.not_mem_none _)⟩

/-- A scan of a source that fits comes upon no character that cannot be passed. -/
theorem Source.Fits.overflow_scan {source : Source} (hfits : source.Fits) (offset : Nat)
    (requested : Request) (context : Context) :
    (scan requested (source.readerAt offset) context).reader.overflow = none := by
  have hunhindered := scan_keeps_reader ByteReader.Unhindered
    (fun _ hhere ↦ hhere.advance_unhindered) (fun _ hhere ↦ hhere.seek_unhindered)
    (fun _ hhere ↦ ⟨hhere.fits, hhere.overflow_eq⟩) requested (source.readerAt offset)
    context ?_
  · exact hunhindered.overflow_eq
  · rw [Source.skipWhile_readerAt]
    exact ⟨hfits, rfl⟩

/-! ### Texts that are cut inside of a character -/

/-- A group that is entered in front of a character outside of ASCII passes it, and goes on as if it
were entered behind it. -/
theorem run_enter_of_le {ρ : Type} [SeekReader ρ] (group : Enclosure) {reader : ρ}
    (context : Context) (hend : atEnd reader = false) (hbyte : 0x80 ≤ current reader) :
    (Nesting.enter group [] reader context).run =
      (Nesting.enter group [] (advance (group.mark reader)) context).run := by
  refine Nesting.run_of_step_eq_more (Nesting.step_of_le rfl ?_ ?_)
  · exact (group.atEnd_mark reader).trans hend
  · exact (group.current_mark reader).symm ▸ hbyte

/-- A group that commits and is entered in front of its closer is found complete. -/
theorem run_enter_of_closer {ρ : Type} [SeekReader ρ] {group : Enclosure}
    (hcommits : group.commits = true) {reader : ρ} (context : Context)
    (hcloser : current reader = group.closer) :
    (Nesting.enter group [] reader context).run =
      ⟨true, advance (group.mark reader), context⟩ := by
  let entered := Nesting.enter group [] reader context
  have hend : atEnd reader = false := by
    refine atEnd_eq_false_of_current_ne_zero ?_
    rw [hcloser]
    exact group.closer_ne_zero
  have hnext : entered.next? = some group.closer := by
    change (if atEnd (group.mark reader) then none else some (current (group.mark reader))) = _
    rw [group.atEnd_mark, hend, group.current_mark, hcloser, if_neg Bool.false_ne_true]
  have hturn : group.turn group.closer entered.takeNext context =
      .close (advance (group.mark reader)) context := by
    cases group with
    | comment => cases hcommits
    | code => rw [Enclosure.turn, Enclosure.codeTurn, Enclosure.closer, if_pos rfl]; rfl
    | bracket => rw [Enclosure.turn, Enclosure.bracketTurn, Enclosure.closer, if_pos rfl]; rfl
  exact Nesting.run_of_step_eq_done (Nesting.step_of_turn_eq_close hnext hturn)

/-- Assumes: a group that commits, entered in front of a character inside of which the text was cut.
The group comes upon a character that cannot be passed. -/
theorem overflow_run_enter_of_cutInside {group : Enclosure} (hcommits : group.commits = true)
    {reader : ByteReader} (context : Context) {front : List Char} {char : Char}
    (hcut : reader.source.CutInside front char)
    (hoffset : reader.offset = Source.encodedSize front) (hwide : 0x80 ≤ Source.leadByte char) :
    (Nesting.enter group [] reader context).run.reader.overflow =
      reader.overflow.or (some reader.offset) := by
  have hmark : ∀ marked : ByteReader, group.mark marked = commit marked := by
    intro marked
    rw [Enclosure.mark, if_pos hcommits]
  have hend : atEnd reader = false := by
    rw [ByteReader.atEnd_eq_false_iff, hoffset]
    exact hcut.lt_size
  have hbyte : 0x80 ≤ current reader := by
    rw [ByteReader.current_eq_byteAt, hoffset, hcut.byteAt_eq]
    exact hwide
  have hpassed : advance (commit reader) = { commit reader with
      offset := reader.source.size
      overflow := reader.overflow.or (some reader.offset) } :=
    ByteReader.advance_of_cutInside hcut hoffset
  have hstop : atEnd (advance (commit reader)) = true := by
    rw [hpassed, ByteReader.atEnd_iff]
    exact Nat.le_refl _
  rw [run_enter_of_le group context hend hbyte, hmark, run_enter_of_atEnd group context hstop,
    hmark, hpassed]
  rfl

/-- Assumes: a group that commits, entered in front of its closer. It is found complete, with the
token ending in front of the closer. -/
theorem run_enter_of_closer_byteReader {group : Enclosure} (hcommits : group.commits = true)
    {reader : ByteReader} (context : Context) (hcloser : current reader = group.closer) :
    (Nesting.enter group [] reader context).run =
      ⟨true, { reader with offset := reader.offset + 1, committed := some reader.offset },
        context⟩ := by
  have hpassed : advance (commit reader) = { commit reader with offset := reader.offset + 1 } :=
    ByteReader.advance_of_isAscii hcloser group.isAscii_closer group.closer_ne_zero
  rw [run_enter_of_closer hcommits context hcloser, Enclosure.mark, if_pos hcommits, hpassed]
  rfl

/-- Asked for code alone, a scan from a place without blanks leaves what reading code there leaves.
-/
theorem reader_scan_of_code {ρ : Type} [SeekReader ρ] {reader : ρ} (context : Context)
    (hskipped : skipWhile isBlank reader = reader) :
    (scan ⟨4⟩ reader context).reader = (readCode reader context).reader := by
  rw [scan, hskipped, Attempt.start_of_code rfl rfl]
  rfl

/-- Asked for payloads alone, a scan from a place without blanks leaves what reading a payload there
leaves. -/
theorem reader_scan_of_payload {ρ : Type} [SeekReader ρ] {reader : ρ} (context : Context)
    (hskipped : skipWhile isBlank reader = reader) :
    (scan ⟨16⟩ reader context).reader = (readPayload reader context).reader := by
  rw [scan, hskipped, Attempt.start_of_payload rfl rfl rfl rfl]
  rfl

/-- A text with a closer behind its first character, which ends with an arrow. Of the three bytes of
the arrow only the first can be addressed, and the width of the arrow leads to the closer in numbers
of 32 bits. -/
def Source.cutArrow (closer : Char) : Source :=
  ⟨String.ofList ('a' :: closer :: List.replicate 4294967292 'a' ++ ['→'])⟩

section CutArrow

variable {closer : Char} (hsize : closer.utf8Size = 1)

include hsize

theorem Source.encodedSize_front_cutArrow :
    encodedSize ('a' :: closer :: List.replicate 4294967292 'a') = 4294967294 := by
  rw [encodedSize_cons, encodedSize_cons, encodedSize_replicate, String.length_utf8EncodeChar,
    String.length_utf8EncodeChar, hsize]
  rfl

theorem Source.cutInside_cutArrow :
    CutInside (cutArrow closer) ('a' :: closer :: List.replicate 4294967292 'a') '→' := by
  have hfront := encodedSize_front_cutArrow hsize
  exact .of_encodedSize (by rw [hfront]; decide) (by rw [hfront]; decide)

theorem Source.readerAt_cutArrow :
    (cutArrow closer).readerAt 4294967294 =
      ⟨cutArrow closer, 4294967294, 4294967294, none, none⟩ := by
  refine readerAt_of_le ?_
  rw [← encodedSize_front_cutArrow hsize]
  exact Nat.le_of_lt (cutInside_cutArrow hsize).lt_size

theorem Source.byteAt_cutArrow :
    (cutArrow closer).byteAt 4294967294 = leadByte '→' ∧
      (cutArrow closer).byteAt 1 = leadByte closer := by
  have hcut := cutInside_cutArrow hsize
  have htext : (cutArrow closer).text.toList =
      ['a'] ++ closer :: (List.replicate 4294967292 'a' ++ ['→']) := String.toList_ofList
  constructor
  · rw [← encodedSize_front_cutArrow hsize, hcut.byteAt_eq]
  · exact byteAt_encodedSize htext (by rw [hcut.size_eq]; decide)

/-- Assumes: a group that commits, and its closer. Entered in front of the arrow, the group comes
upon a character that cannot be passed, and goes on where its width leads in numbers of 32 bits:
entered there, with the same token, it is found complete, and the token ends there. -/
theorem run_enter_cutArrow {group : Enclosure} (hcommits : group.commits = true)
    (hcloser : Source.leadByte closer = group.closer) (context : Context) {reader : ByteReader}
    (hreader : reader = (Source.cutArrow closer).readerAt 4294967294) :
    (skipWhile isBlank reader = reader ∧
        (reader.offset + Source.leadWidth (current reader)) % UInt32.size = 1) ∧
      (Nesting.enter group [] reader context).run.reader.overflow = some 4294967294 ∧
      (Nesting.enter group [] { reader with offset := 1 } context).run =
        ⟨true, ⟨Source.cutArrow closer, 2, 4294967294, some 1, none⟩, context⟩ := by
  have hfront := Source.encodedSize_front_cutArrow hsize
  have hcut := Source.cutInside_cutArrow hsize
  obtain ⟨harrow, hsecond⟩ := Source.byteAt_cutArrow hsize
  rw [Source.readerAt_cutArrow hsize] at hreader
  have hcurrent : current reader = Source.leadByte '→' := by
    rw [hreader]
    exact harrow
  refine ⟨⟨?_, ?_⟩, ?_, ?_⟩
  · refine skipWhile_of_refused ?_
    rw [hcurrent]
    decide
  · rw [hcurrent, hreader]
    change (4294967294 + _) % _ = _
    decide
  · rw [hreader]
    exact overflow_run_enter_of_cutInside hcommits context hcut hfront.symm (by decide)
  · rw [hreader]
    exact run_enter_of_closer_byteReader hcommits context (hsecond.trans hcloser)

end CutArrow

/-! ### Fragments -/

/-- Assumes: a scan of a source that finds a fragment. The scan has found its kind, and the fragment
is the token that the scan has left. -/
theorem scan_of_scanAt_eq_some {source : Source} {offset : Nat} {requested : Request}
    {context : Context} {fragment : Fragment}
    (hfound : (source.scanAt offset requested context).fragment = some fragment) :
    let found := scan requested (source.readerAt offset) context
    found.kind = some fragment.kind ∧ fragment.start = found.reader.tokenStart ∧
      fragment.start + fragment.length = found.reader.tokenEnd := by
  intro found
  have horder := (tokenAt_scan source offset requested context).start_le_tokenEnd
  obtain ⟨kind, hkind, rfl⟩ := Option.map_eq_some_iff.mp hfound
  exact ⟨hkind, rfl, Nat.add_sub_cancel' horder⟩

/-- A scan that finds a fragment starts its token in front of the end of the text. -/
theorem afterBlanks_lt_of_scan {source : Source} {offset : Nat} {requested : Request}
    {context : Context} {kind : FragmentKind}
    (hkind : (scan requested (source.readerAt offset) context).kind = some kind) :
    source.afterBlanks (min offset source.size) < source.size := by
  have htried := Attempt.start_tried requested (skipWhile isBlank (source.readerAt offset)) context
  by_contra hge
  have hend : atEnd (skipWhile isBlank (source.readerAt offset)) = true := by
    rw [Source.skipWhile_readerAt, ByteReader.atEnd_iff]
    exact Nat.not_lt.mp hge
  exact absurd (hkind.symm.trans (kind?_of_atEnd hend htried)) nofun

/-- Assumes: a scan of a source that fits, from any offset, which is cut down to the length of the
text, and the scan finds a fragment. Every character could be passed. The kind of the fragment was
asked for. It starts at the first byte, at or after that offset, that is no blank. It reaches to the
end of the token that the scan has left, which is not in front of the start, and lies inside of the
text. It ends between characters, and it starts between characters if the offset is one between
characters. -/
theorem scanAt_span {source : Source} (hfits : source.Fits) (offset : Nat) (requested : Request)
    (context : Context) (fragment : Fragment)
    (hfound : (source.scanAt offset requested context).fragment = some fragment) :
    let origin := min offset source.size
    let token := (scan requested (source.readerAt offset) context).reader
    (source.scanAt offset requested context).overflow = none ∧
      requested.permits fragment.kind = true ∧
      (origin ≤ fragment.start ∧ fragment.start < source.size ∧
        isBlank (source.byteAt fragment.start) = false ∧
        ∀ passed, origin ≤ passed → passed < fragment.start →
          isBlank (source.byteAt passed) = true) ∧
      (fragment.start = token.tokenStart ∧ token.tokenStart ≤ token.tokenEnd ∧
        fragment.start + fragment.length = token.tokenEnd) ∧
      fragment.start + fragment.length ≤ source.size ∧
      source.IsBoundary fragment.stop ∧
      (source.IsBoundary origin → source.IsBoundary fragment.start) := by
  intro origin token
  have horigin : source.afterBlanks origin ≤ source.size :=
    Source.afterBlanks_le (Nat.min_le_right _ _)
  have htoken := tokenAt_scan source offset requested context
  have htried := Attempt.start_tried requested (skipWhile isBlank (source.readerAt offset)) context
  obtain ⟨hkind, hstart, hstop⟩ := scan_of_scanAt_eq_some hfound
  have hfirst : fragment.start = source.afterBlanks origin := hstart.trans htoken.tokenStart_eq
  have htokenEnd : token.source.IsBoundary token.tokenEnd := by
    refine tokenEnd_boundary_of_tried ?_ htried hkind ?_ ?_
    · rw [Source.skipWhile_readerAt]
      exact hfits
    · rw [Source.skipWhile_readerAt]
      exact horigin
    · rw [Source.skipWhile_readerAt]
  have hend : source.IsBoundary (fragment.start + fragment.length) := by
    rw [htoken.source_eq] at htokenEnd
    rw [hstop]
    exact htokenEnd
  have hlt : source.afterBlanks origin < source.size := afterBlanks_lt_of_scan hkind
  refine ⟨hfits.overflow_scan offset requested context,
    Attempt.permits_of_kind?_eq_some htried hkind, ?_,
    ⟨hstart, htoken.start_le_tokenEnd, hstop⟩, ?_, hend, ?_⟩
  · rw [hfirst]
    exact ⟨Source.le_afterBlanks, hlt, Source.isBlank_byteAt_afterBlanks hlt,
      fun passed ↦ Source.isBlank_of_lt_afterBlanks⟩
  · rw [hstop]
    exact (inRange_scan source offset requested context).tokenEnd_le
  · rw [hfirst]
    exact fun hboundary ↦ Source.IsBoundary.afterBlanks hboundary hfits

/-- Code that is scanned from the second byte of a character starts there and ends in front of its
closing delimiter. -/
theorem scanAt_span_witness :
    let source : Source := ⟨"é→ %\x7d"⟩
    let fragment : Fragment := ⟨.code, 1, 5⟩
    (source.scanAt 1 ⟨4⟩ .initial).fragment = some fragment ∧ ¬ source.IsBoundary fragment.start ∧
      source.IsBoundary fragment.stop ∧ fragment.stop ≤ source.size := by
  intro source fragment
  have hfound : (source.scanAt 1 ⟨4⟩ .initial).fragment = some fragment := by decide +kernel
  have hfits : source.Fits := by decide +kernel
  obtain ⟨-, -, -, -, hsize, hstop, -⟩ := scanAt_span hfits 1 ⟨4⟩ .initial fragment hfound
  exact ⟨hfound, by decide +kernel, hstop, hsize⟩

/-- Code that is scanned from an arrow of which only the first byte can be addressed comes upon the
width of the arrow, which adds up to one in 32 bits. From there the code is found complete, and its
token ends in front of its start. -/
theorem scanAt_end_wraps_around :
    let source := Source.cutArrow '\x7d'
    let reader := source.readerAt 4294967294
    let wrapped := readCode { reader with offset := 1 } .initial
    (source.scanAt 4294967294 ⟨4⟩ .initial).overflow = some 4294967294 ∧
      (reader.offset + Source.leadWidth (current reader)) % UInt32.size = 1 ∧
      wrapped.matched = true ∧ wrapped.reader.tokenStart = 4294967294 ∧
      wrapped.reader.tokenEnd = 1 := by
  intro source reader wrapped
  have hsize : Char.utf8Size '\x7d' = 1 := rfl
  have hcloser : Source.leadByte '\x7d' = Enclosure.closer .code := rfl
  obtain ⟨⟨hskipped, hsum⟩, hoverflow, hwrapped⟩ :=
    run_enter_cutArrow hsize rfl hcloser .initial
      (show reader = source.readerAt 4294967294 from rfl)
  have hscan : (source.scanAt 4294967294 ⟨4⟩ .initial).overflow =
      (scan ⟨4⟩ reader .initial).reader.overflow := source.overflow_scanAt 4294967294 ⟨4⟩ .initial
  have hfound : wrapped = ⟨true, ⟨source, 2, 4294967294, some 1, none⟩, .initial⟩ := hwrapped
  rw [hscan, reader_scan_of_code .initial hskipped, readCode, hfound]
  exact ⟨hoverflow, hsum, rfl, rfl, rfl⟩

end GrammarFragments
