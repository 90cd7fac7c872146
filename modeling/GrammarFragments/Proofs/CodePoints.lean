import GrammarFragments.Host.Session
import GrammarFragments.Proofs.Attempts
import GrammarFragments.Proofs.Nesting.Depth
import GrammarFragments.Source.Places

/-!
The reader over the bytes of a source and the lexer of a host walk through one text in different
units: the one counts bytes, the other code points. A place in the text has an index, the number of
code points in front of it, and an offset, the number of their bytes (`Source.IsCharIndex`). Both
readers pass one character at a time, so they stay at the same place (`samePlace_simulation`), and
they report alike characters there: an ASCII character by its own byte, any other by a leading byte
on one side and by `0x80` on the other.

Main statement: a scan for a host finds in the code points of a text what a scan of the source finds
in its bytes (`hostScan_agrees_scanAt`), if the source holds the whole text. A host has all of a
text, however long it is (`hostScan_finds_lost_text`).
-/

set_option autoImplicit false
set_option relaxedAutoImplicit false

namespace GrammarFragments

open Reader

namespace Source

/-- There are `index` characters in front of the byte offset `offset`, which is not inside of a
character. -/
def IsCharIndex (source : Source) (index offset : Nat) : Prop :=
  ∃ front back : List Char, source.text.toList = front ++ back ∧ front.length = index ∧
    encodedSize front = offset

end Source

/-- Assumes: the encoding of a character by a leading byte that gives its width. The leading byte
and the byte by which a host lexer reports the character are alike. -/
theorem alike_lead_reportedByte {char : Char} {lead : UInt8} {trailing : List UInt8}
    (hencode : String.utf8EncodeChar char = lead :: trailing)
    (hwidth : Source.leadWidth lead = trailing.length + 1) :
    Alike lead (HostLexer.reportedByte char.toNat) := by
  have hlength : char.utf8Size = trailing.length + 1 := by
    rw [← String.length_utf8EncodeChar, hencode, List.length_cons]
  have hascii : char.utf8Size = 1 ↔ char.toNat < 0x80 := by
    rw [Char.utf8Size_eq_one_iff, UInt32.le_iff_toNat_le]
    exact Nat.lt_succ_iff.symm
  by_cases hone : char.utf8Size = 1
  · rw [String.utf8EncodeChar_eq_singleton hone, List.cons.injEq] at hencode
    have hreported : HostLexer.reportedByte char.toNat = char.val.toUInt8 := by
      have hlt := hascii.mp hone
      rw [HostLexer.reportedByte, if_pos (by omega), Int.toNat_natCast]
      rfl
    exact .inl (hencode.1.symm.trans hreported.symm)
  · have hlead : 0x80 ≤ lead := by
      refine UInt8.not_lt.mp fun hlow ↦ ?_
      have hsmall : lead < 0xC0 := UInt8.lt_trans hlow (by decide)
      rw [Source.leadWidth, if_pos hsmall] at hwidth
      omega
    have hreported : HostLexer.reportedByte char.toNat = 0x80 := by
      have hge := mt hascii.mpr hone
      rw [HostLexer.reportedByte, if_neg (by omega)]
    exact .inr ⟨hlead, hreported ▸ UInt8.le_refl _⟩

/-! ### The two readers at one place -/

/-- The two readers stand at the same place of a source that fits, have the token start at the same
place, and have committed the same end or none. Every character so far could be passed. -/
structure SamePlace (source : Source) (reader : ByteReader) (lexer : HostLexer) : Prop where
  fits : source.Fits
  source_eq : reader.source = source
  codes_eq : lexer.codes = (HostLexer.ofText source.text).codes
  offset_index : source.IsCharIndex lexer.position reader.offset
  tokenStart_index : source.IsCharIndex lexer.tokenStart reader.tokenStart
  committed_index : Option.Rel (fun offset index ↦ source.IsCharIndex index offset)
    reader.committed lexer.committed
  overflow_eq : reader.overflow = none

namespace SamePlace

variable {source : Source} {reader : ByteReader} {lexer : HostLexer}

theorem size_codes (hplace : SamePlace source reader lexer) :
    lexer.codes.size = source.text.toList.length := by
  rw [hplace.codes_eq]
  simp [HostLexer.ofText, HostLexer.ofCodes]

/-- Assumes: a text in which `char` comes after the characters that the lexer has passed. The lexer
shows the code of that character. -/
theorem code_eq (hplace : SamePlace source reader lexer) {front back : List Char} {char : Char}
    (htext : source.text.toList = front ++ char :: back)
    (hindex : front.length = lexer.position) : lexer.code = char.toNat := by
  rw [HostLexer.code, hplace.codes_eq, ← hindex]
  simp [HostLexer.ofText, HostLexer.ofCodes, htext]

/-- Either both readers are at the end of the text, or both show one character and pass it
together. -/
theorem atEnd_or_next (hplace : SamePlace source reader lexer) :
    (reader.offset = source.size ∧ lexer.position = lexer.codes.size) ∨
      (reader.offset < source.size ∧ lexer.position < lexer.codes.size ∧
        Alike (source.byteAt reader.offset) (HostLexer.reportedByte lexer.code) ∧
        source.IsCharIndex (lexer.position + 1) (source.next reader.offset)) := by
  obtain ⟨front, back, htext, hindex, hoffset⟩ := hplace.offset_index
  cases back with
  | nil =>
    rw [List.append_nil] at htext
    refine .inl ⟨?_, ?_⟩
    · rw [← hoffset, hplace.fits.size_eq_encodedSize, htext]
    · rw [← hindex, hplace.size_codes, htext]
  | cons char back =>
    obtain ⟨lead, trailing, hencode, hwidth, hlt, hbyte, hnext⟩ :=
      hplace.fits.exists_lead_of_toList_eq htext
    rw [hoffset] at hlt hbyte hnext
    refine .inr ⟨hlt, ?_, ?_, front ++ [char], back, ?_, ?_, hnext.symm⟩
    · rw [hplace.size_codes, htext, ← hindex]
      simp
    · rw [hbyte, hplace.code_eq htext hindex]
      exact alike_lead_reportedByte hencode hwidth
    · rw [htext, List.append_assoc, List.singleton_append]
    · rw [List.length_append, List.length_singleton, hindex]

theorem current_alike (hplace : SamePlace source reader lexer) :
    Alike (current reader) (current lexer) := by
  show Alike (reader.source.byteAt reader.offset) (HostLexer.reportedByte lexer.code)
  rw [hplace.source_eq]
  rcases hplace.atEnd_or_next with ⟨hoffset, hposition⟩ | ⟨-, -, halike, -⟩
  · have hbyte : source.byteAt reader.offset = 0 := by
      rw [Source.byteAt, dif_neg (by omega)]
    have hcode : lexer.code = 0 := by
      rw [HostLexer.code, hposition]
      simp
    rw [hbyte, hcode, HostLexer.reportedByte_zero]
    exact Alike.refl 0
  · exact halike

theorem atEnd_eq (hplace : SamePlace source reader lexer) : atEnd reader = atEnd lexer := by
  show decide (reader.source.size ≤ reader.offset) = decide (lexer.codes.size ≤ lexer.position)
  rw [hplace.source_eq]
  rcases hplace.atEnd_or_next with ⟨hoffset, hposition⟩ | ⟨hoffset, hposition, -, -⟩
  · rw [decide_eq_true (by omega), decide_eq_true (by omega)]
  · rw [decide_eq_false (by omega), decide_eq_false (by omega)]

theorem overflow_advanceChar (hplace : SamePlace source reader lexer) :
    reader.advanceChar.overflow = none := by
  rw [ByteReader.overflow_advanceChar (hplace.source_eq ▸ hplace.fits), hplace.overflow_eq]

theorem advance_samePlace (hplace : SamePlace source reader lexer) :
    SamePlace source (advance reader) (advance lexer) := by
  show SamePlace source reader.advanceChar lexer.advanceCode
  rcases hplace.atEnd_or_next with ⟨hoffset, hposition⟩ | ⟨hoffset, hposition, -, hnext⟩
  · have hend : reader.source.size ≤ reader.offset := by
      rw [hplace.source_eq]
      exact Nat.le_of_eq hoffset.symm
    rw [ByteReader.advanceChar_of_le hend, HostLexer.advanceCode, if_neg (by omega)]
    exact hplace
  · rw [HostLexer.advanceCode, if_pos hposition]
    have hindex : source.IsCharIndex (lexer.position + 1) (reader.source.next reader.offset) :=
      hplace.source_eq ▸ hnext
    exact { hplace with offset_index := hindex, overflow_eq := hplace.overflow_advanceChar }

/-- Assumes: readers that are not at the end. Both start their token after the next character. -/
theorem skip_samePlace (hplace : SamePlace source reader lexer) (hend : atEnd reader = false) :
    SamePlace source (skip reader) (skip lexer) := by
  show SamePlace source reader.skipChar lexer.skipCode
  have hoffset : reader.offset < source.size := by
    have hinside : decide (reader.source.size ≤ reader.offset) = false := hend
    rw [hplace.source_eq] at hinside
    simpa using hinside
  rcases hplace.atEnd_or_next with ⟨hstop, -⟩ | ⟨-, hposition, -, hnext⟩
  · omega
  · rw [HostLexer.skipCode, if_pos hposition]
    have hindex : source.IsCharIndex (lexer.position + 1) (reader.source.next reader.offset) :=
      hplace.source_eq ▸ hnext
    exact { hplace with
      offset_index := hindex
      tokenStart_index := hindex
      overflow_eq := hplace.overflow_advanceChar }

theorem commit_samePlace (hplace : SamePlace source reader lexer) :
    SamePlace source (commit reader) (commit lexer) :=
  { hplace with committed_index := .some hplace.offset_index }

end SamePlace

/-- The token under construction does not end before it starts. -/
structure TokenInOrder (reader : ByteReader) : Prop where
  start_le_offset : reader.tokenStart ≤ reader.offset
  start_le_committed : ∀ stop, reader.committed = some stop → reader.tokenStart ≤ stop

namespace TokenInOrder

variable {reader : ByteReader}

theorem advance_inOrder (horder : TokenInOrder reader) : TokenInOrder (advance reader) where
  start_le_offset := Nat.le_trans horder.start_le_offset (reader.source.le_next reader.offset)
  start_le_committed := horder.start_le_committed

theorem seek_inOrder (horder : TokenInOrder reader) : TokenInOrder (SeekReader.seek reader) where
  start_le_offset := Nat.le_trans horder.start_le_offset (reader.source.le_find _ reader.offset)
  start_le_committed := horder.start_le_committed

theorem commit_inOrder (horder : TokenInOrder reader) : TokenInOrder (commit reader) where
  start_le_offset := horder.start_le_offset
  start_le_committed := by
    intro stop hstop
    cases hstop
    exact horder.start_le_offset

end TokenInOrder

/-- Readers at the same place of a text are not told apart. -/
theorem samePlace_readerSimulation (source : Source) :
    ReaderSimulation fun reader lexer ↦ SamePlace source reader lexer ∧ TokenInOrder reader where
  current_alike hrelated _ := hrelated.1.current_alike
  atEnd_eq hrelated _ := hrelated.1.atEnd_eq
  advance_related hrelated := ⟨hrelated.1.advance_samePlace, hrelated.2.advance_inOrder⟩
  commit_related hrelated := ⟨hrelated.1.commit_samePlace, hrelated.2.commit_inOrder⟩

/-- Readers at the same place of a text simulate each other in the same context. -/
theorem samePlace_simulation (source : Source) :
    ScanSimulation (fun reader lexer ↦ SamePlace source reader lexer ∧ TokenInOrder reader)
      (fun context other ↦ context = other) where
  toSeekSimulation := (samePlace_readerSimulation source).seekSimulation fun hrelated ↦
    ⟨ByteReader.seekBytes_eq_seekStepwise (hrelated.1.source_eq ▸ hrelated.1.fits), rfl⟩
  clearTag_akin hsame := by rw [hsame]
  inString_eq hsame := by rw [hsame]
  toggle_akin hsame := by rw [hsame]

/-! ### Scans -/

theorem samePlace_start {source : Source} (hfits : source.Fits) :
    SamePlace source (source.readerAt 0) (HostLexer.ofText source.text) := by
  have hstart : source.IsCharIndex 0 (min 0 source.size) :=
    ⟨[], source.text.toList, rfl, rfl, (Nat.zero_min source.size).symm⟩
  exact ⟨hfits, rfl, rfl, hstart, hstart, .none, rfl⟩

/-- Skipping the blanks in front of the token brings the two readers to the same place, before
anything is committed. -/
theorem samePlace_skipWhile {source : Source} (hfits : source.Fits) :
    SamePlace source (skipWhile isBlank (source.readerAt 0))
        (skipWhile isBlank (HostLexer.ofText source.text)) ∧
      TokenInOrder (skipWhile isBlank (source.readerAt 0)) := by
  obtain ⟨hplace, hle, hnone⟩ := skipWhile_related
    (fun reader lexer ↦ SamePlace source reader lexer ∧ reader.tokenStart ≤ reader.offset ∧
      reader.committed = none) asciiOnly_isBlank (fun hrelated ↦ hrelated.1.current_alike)
    (fun hrelated ↦ hrelated.1.atEnd_eq)
    (fun hrelated hend ↦ ⟨hrelated.1.skip_samePlace hend, Nat.le_refl _, hrelated.2.2⟩)
    ⟨samePlace_start hfits, Nat.le_refl _, rfl⟩
  refine ⟨hplace, hle, ?_⟩
  intro stop hstop
  rw [hnone] at hstop
  cases hstop

/-- A scan for a host that finds a fragment has committed its end. -/
theorem exists_committed_of_scan {requested : Request} {lexer : HostLexer} {context : Context}
    (hkind : (scan requested lexer context).kind.isSome = true) :
    ∃ stop, (scan requested lexer context).reader.committed = some stop := by
  have hadvance : ∀ lexer : HostLexer, lexer.committed.isSome = true →
      (advance lexer).committed.isSome = true := by
    intro lexer hcommitted
    show lexer.advanceCode.committed.isSome = true
    rw [HostLexer.advanceCode]
    split
    · exact hcommitted
    · exact hcommitted
  exact Option.isSome_iff_exists.mp
    (scan_holds (fun lexer ↦ lexer.committed.isSome = true) hadvance
      (fun _ ↦ advanceWhile_holds hadvance _) (fun _ ↦ rfl) hkind)

/-- Assumes: readers at the same place, and an end committed by the lexer. The token of the source
ends there. -/
theorem tokenEnd_index {source : Source} {reader : ByteReader} {lexer : HostLexer} {stop : Nat}
    (hplace : SamePlace source reader lexer) (horder : TokenInOrder reader)
    (hstop : lexer.committed = some stop) :
    source.IsCharIndex stop (reader.tokenStart + (reader.tokenEnd - reader.tokenStart)) := by
  have hcommitted := hplace.committed_index
  rw [hstop] at hcommitted
  cases hreader : reader.committed with
  | none =>
    rw [hreader] at hcommitted
    cases hcommitted
  | some offset =>
    rw [hreader] at hcommitted
    have hle := horder.start_le_committed offset hreader
    have hend : reader.tokenEnd = offset := by rw [ByteReader.tokenEnd, hreader, Option.getD_some]
    rw [hend, Nat.add_sub_cancel' hle]
    cases hcommitted with
    | some hindex => exact hindex

/-- Assumes: a text that a source holds as a whole. A scan for a host over the code points of the
text finds what a scan of the text as a source finds over its bytes, in every context and for every
set of flags: either neither finds anything, or both find a fragment of the same kind, and the
symbol number, the start and the committed end that the host is left with are the number of that
kind and the code-point indices of the byte offsets of the fragment. The contexts afterwards are the
same in either case, and every character could be passed. -/
theorem hostScan_agrees_scanAt {text : String} (hfits : Source.Fits ⟨text⟩) (context : Context)
    (flags : List Bool) :
    let source : Source := ⟨text⟩
    let finding := source.scanAt 0 (Request.ofFlags flags) context
    let served := HostSession.scan ⟨some context⟩ (HostLexer.ofText text) flags
    served.1 = ⟨some finding.context⟩ ∧ finding.overflow = none ∧
      match finding.fragment with
      | none => served.2.matched = false
      | some fragment =>
        served.2.matched = true ∧
          served.2.lexer.resultSymbol = some fragment.kind.symbol ∧
          source.IsCharIndex served.2.lexer.tokenStart fragment.start ∧
          ∃ stop, served.2.lexer.committed = some stop ∧
            source.IsCharIndex stop fragment.stop := by
  intro source finding served
  let found := scan (Request.ofFlags flags) (source.readerAt 0) context
  let hosted := scan (Request.ofFlags flags) (HostLexer.ofText text) context
  have hscans : ScansRelated _ _ found hosted := (samePlace_simulation source).scan_related
    (Request.ofFlags flags) (samePlace_skipWhile hfits) rfl
  obtain ⟨hkind, -, ⟨hplace, horder⟩, hcontext⟩ := hscans
  refine ⟨?_, hplace.overflow_eq, ?_⟩
  · show HostSession.mk (some (scan _ (HostLexer.ofText text) context).context) = _
    rw [← hcontext]
    rfl
  · have hfragment : finding.fragment = found.kind.map fun kind ↦
      ⟨kind, found.reader.tokenStart, found.reader.tokenEnd - found.reader.tokenStart⟩ := rfl
    have hmatched : served.2.matched = found.kind.isSome := congrArg Option.isSome hkind.symm
    have hlexer : served.2.lexer = HostSession.announce found.kind hosted.reader := by
      rw [hkind]
      rfl
    rw [hfragment, hmatched, hlexer]
    cases hfound : found.kind with
    | none => rfl
    | some kind =>
      have hhosted : hosted.kind.isSome = true := by rw [← hkind, hfound, Option.isSome_some]
      obtain ⟨stop, hstop⟩ := exists_committed_of_scan hhosted
      exact ⟨rfl, rfl, hplace.tokenStart_index, stop, hstop, tokenEnd_index hplace horder hstop⟩

/-- Blanks and characters of two and three bytes come before the percent sign that belongs to the
closing delimiter: the host counts three code points where the source counts six bytes. -/
theorem hostScan_agrees_scanAt_witness :
    let text := " é→%\x7d"
    let flags := [false, false, true]
    let served := HostSession.scan ⟨some .initial⟩ (HostLexer.ofText text) flags
    (Source.Fits ⟨text⟩ ∧ (Source.scanAt ⟨text⟩ 0 (Request.ofFlags flags) .initial).fragment =
        some ⟨.code, 1, 5⟩) ∧
      served.2.matched = true ∧ served.2.lexer.resultSymbol = some 2 ∧
      Source.IsCharIndex ⟨text⟩ served.2.lexer.tokenStart 1 ∧
      ∃ stop, served.2.lexer.committed = some stop ∧ Source.IsCharIndex ⟨text⟩ stop 6 := by
  intro text flags served
  have hfits : Source.Fits ⟨text⟩ := by decide +kernel
  have hfragment : (Source.scanAt ⟨text⟩ 0 (Request.ofFlags flags) .initial).fragment =
      some ⟨.code, 1, 5⟩ := by decide +kernel
  obtain ⟨-, -, hagree⟩ := hostScan_agrees_scanAt hfits .initial flags
  rw [hfragment] at hagree
  exact ⟨⟨hfits, hfragment⟩, hagree⟩

/-- Assumes: a reader in front of a string literal with plain content. Asked for code, and not for
comments, a scan finds code exactly if the characters behind the literal close it. -/
theorem kind_scan_of_string {ρ : Type} [SeekReader ρ] {requested : Request} {reader : ρ}
    {content tail : List UInt8} (hcomment : requested.permits .comment = false)
    (hcode : requested.permits .code = true)
    (hcontent : ∀ byte ∈ content, isStringStop byte = false)
    (hrest : rest reader = Ascii.doubleQuote :: (content ++ Ascii.doubleQuote :: tail))
    (context : Context) :
    (scan requested reader context).kind.isSome = (codeCounter.run 1 tail).1 := by
  have hcurrent : current reader = Ascii.doubleQuote := by
    rw [current_eq_headD, hrest, List.headD_cons]
  have hskipped : skipWhile isBlank reader = reader := by
    refine skipWhile_of_refused ?_
    rw [hcurrent]
    decide
  have hverdict : (readCode reader context).verdict = codeCounter.run 1 tail := by
    rw [readCode, Enclosure.verdict_run_enter, hrest]
    change codeCounter.run 1 _ = _
    rw [codeCounter_run_doubleQuote, StringLiteral.finish_append_quote hcontent]
  have hmatched : (readCode reader context).matched = (codeCounter.run 1 tail).1 :=
    congrArg Prod.fst hverdict
  rw [scan, hskipped, Attempt.start_of_code hcomment hcode, ← hmatched]
  exact Attempt.isSome_kind?_ofOutcome .code (readCode reader context)

/-- Of a text with a string literal and a brace behind it, which is the first byte that cannot be
addressed, the host sees the brace and finds code. The source does not hold it and finds nothing. -/
theorem hostScan_finds_lost_text :
    let text := String.ofList
      ('\x22' :: (List.replicate 4294967293 'a' ++ ['\x22'] ++ ['\x7d']))
    let flags := [false, false, true]
    let finding := Source.scanAt ⟨text⟩ 0 (Request.ofFlags flags) .initial
    let served := HostSession.scan ⟨some .initial⟩ (HostLexer.ofText text) flags
    text.utf8ByteSize = 4294967296 ∧ served.2.matched = true ∧ finding.fragment = none := by
  intro text flags finding served
  let source : Source := ⟨text⟩
  let opened : List Char := '\x22' :: (List.replicate 4294967293 'a' ++ ['\x22'])
  have hopened : Source.encodedSize opened = 4294967295 := by
    rw [Source.encodedSize_cons, Source.encodedSize_append, Source.encodedSize_replicate]
    rfl
  have htext : source.text.toList = opened ++ ['\x7d'] := String.toList_ofList
  have hsize : source.size = Source.encodedSize opened :=
    Source.size_eq_of_encodedSize_eq htext hopened
  have hplain : ∀ byte ∈ List.replicate 4294967293 0x61, isStringStop byte = false := by
    intro byte hbyte
    rw [List.eq_of_mem_replicate hbyte]
    rfl
  have hheld : rest (source.readerAt 0) =
      Ascii.doubleQuote :: (List.replicate 4294967293 0x61 ++ Ascii.doubleQuote :: []) := by
    have hwhole : source.text.toList = [] ++ (opened ++ ['\x7d']) := htext
    have hwalk : source.charsFrom 0 = Source.reported opened :=
      Source.charsFrom_of_size_eq hwhole hsize
    change source.charsFrom (min 0 source.size) = _
    rw [Nat.zero_min, hwalk, Source.reported, List.map_cons, List.map_append, List.map_replicate]
    rfl
  have hhost : rest (HostLexer.ofText text) = Ascii.doubleQuote ::
      (List.replicate 4294967293 0x61 ++ Ascii.doubleQuote :: [Ascii.braceClose]) := by
    have hquote : HostLexer.reportedByte ('\x22'.toNat : Int) = Ascii.doubleQuote := by decide
    have hletter : HostLexer.reportedByte ('a'.toNat : Int) = 0x61 := by decide
    have hbrace : HostLexer.reportedByte ('\x7d'.toNat : Int) = Ascii.braceClose := by decide
    rw [HostLexer.rest_ofText, htext, List.map_append, List.map_cons, List.map_append,
      List.map_replicate, List.map_singleton, List.map_singleton, hquote, hletter, hbrace,
      List.cons_append, List.append_assoc, List.singleton_append]
  have hcomment : (Request.ofFlags [false, false, true]).permits .comment = false := by decide
  have hcode : (Request.ofFlags [false, false, true]).permits .code = true := by decide
  have hclosed : (codeCounter.run 1 [Ascii.braceClose]).1 = true := by
    rw [DepthCounter.run]
    change (codeCounter.run 0 []).1 = _
    rw [DepthCounter.run]
  have hunclosed : (codeCounter.run 1 []).1 = false := by
    rw [DepthCounter.run]
  refine ⟨?_, ?_, ?_⟩
  · rw [← Source.encodedSize_toList, htext, Source.encodedSize_append, hopened]
    rfl
  · exact (kind_scan_of_string hcomment hcode hplain hhost .initial).trans hclosed
  · have hkind := (kind_scan_of_string hcomment hcode hplain hheld .initial).trans hunclosed
    exact Option.map_eq_none_iff.mpr (Option.not_isSome_iff_eq_none.mp (Bool.eq_false_iff.mp hkind))

end GrammarFragments
