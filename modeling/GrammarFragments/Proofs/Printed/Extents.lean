import Mathlib.Data.List.Infix
import GrammarFragments.Proofs.Failure
import GrammarFragments.Proofs.Locality
import GrammarFragments.Proofs.Printed.Items
import GrammarFragments.Proofs.Spans.TokenEnds

/-!
Where a written group ends. The text may be longer than what is held of it, as long as the group is
held. A reader that walks through a part that is held passes each of its characters, and the
characters that it leaves tell its offset (`ByteReader.Within.offset_of_rest`); and the space in
front of the closing delimiter rules out that a percent sign belongs to it, so the token ends in
front of the delimiter.

Main statements: every written comment is a fragment of exactly its own length
(`written_comment_consumed`), and every written code block and payload is read up to its closing
delimiter, with the token ending in front of it (`written_code_and_payload_consumed`), whatever
comes after, as long as the written text is held. If its last byte is not, nothing is found
(`written_comment_lost_at_cut`, `written_code_lost_at_cut`).
-/

set_option autoImplicit false
set_option relaxedAutoImplicit false

namespace GrammarFragments

open Reader Source

/-! ### Readers in a part that is held -/

/-- The reader started behind `front` and has passed `count` characters. Unless these are more than
`middle` has, it stands behind as many characters of `middle`, and all of them could be passed. -/
structure ByteReader.Within (source : Source) (front middle : List Char) (reader : ByteReader) :
    Prop where
  source_eq : reader.source = source
  exists_count : ∃ count,
    count + (rest reader).length = (source.charsFrom (encodedSize front)).length ∧
      (count ≤ middle.length →
        reader.offset = encodedSize (front ++ middle.take count) ∧ reader.overflow = none)

namespace ByteReader.Within

variable {source : Source} {front middle back : List Char} {reader : ByteReader}

theorem advance_within (htext : source.text.toList = front ++ (middle ++ back))
    (hheld : encodedSize (front ++ middle) ≤ source.size) (reader : ByteReader)
    (hwithin : Within source front middle reader) :
    Within source front middle (advance reader) := by
  obtain ⟨rfl, count, hcount, hplace⟩ := hwithin
  cases hend : atEnd reader with
  | true =>
    rw [advance_of_atEnd hend]
    exact ⟨rfl, count, hcount, hplace⟩
  | false =>
    refine ⟨rfl, count + 1, ?_, fun hle ↦ ?_⟩
    · rw [rest_advance, ← hcount, rest_eq_cons hend, List.tail_cons, List.length_cons]
      omega
    · obtain ⟨hoffset, hoverflow⟩ := hplace (Nat.le_of_succ_le hle)
      have htaken : front ++ middle.take (count + 1) =
          (front ++ middle.take count) ++ [middle[count]] := by
        rw [List.take_succ_eq_append_getElem hle, List.append_assoc]
      have hsplit : front ++ middle =
          (front ++ middle.take (count + 1)) ++ middle.drop (count + 1) := by
        rw [List.append_assoc, List.take_append_drop]
      have hnext : reader.source.text.toList =
          (front ++ middle.take count) ++ middle[count] :: (middle.drop (count + 1) ++ back) := by
        rw [htext, ← List.append_assoc, hsplit, htaken]
        simp only [List.append_assoc, List.cons_append, List.nil_append]
      have hthere : encodedSize ((front ++ middle.take count) ++ [middle[count]]) ≤
          reader.source.size := by
        rw [← htaken]
        rw [hsplit, encodedSize_append] at hheld
        exact Nat.le_trans (Nat.le_add_right _ _) hheld
      constructor
      · change reader.source.next reader.offset = _
        rw [hoffset, next_of_held hnext hthere, htaken]
      · change reader.overflow.or (reader.source.overflow? reader.offset) = none
        rw [hoverflow, hoffset, overflow?_of_held hnext hthere, Option.or_none]

/-- A search in bulk passes the characters of the walk, and notes none of them. -/
theorem seek_within (htext : source.text.toList = front ++ (middle ++ back))
    (hheld : encodedSize (front ++ middle) ≤ source.size) (reader : ByteReader)
    (hwithin : Within source front middle reader) :
    Within source front middle (SeekReader.seek reader) := by
  have hwalked : Within source front middle (seekStepwise reader) :=
    advanceWhile_holds (advance_within htext hheld) _ hwithin
  have hpassed := (rest_advanceWhile_suffix (fun byte ↦ !isStringStop byte) reader).length_le
  obtain ⟨-, before, hbefore, hfree⟩ := hwithin
  obtain ⟨hsource, count, hcount, hplace⟩ := hwalked
  change Within source front middle reader.seekBytes
  rw [← seekStepwise_withOverflow]
  refine ⟨hsource, count, hcount, fun hle ↦ ⟨(hplace hle).1, (hfree ?_).2⟩⟩
  change (rest (seekStepwise reader)).length ≤ _ at hpassed
  omega

theorem commit_within (reader : ByteReader) (hwithin : Within source front middle reader) :
    Within source front middle (commit reader) :=
  ⟨hwithin.source_eq, hwithin.exists_count⟩

/-- Where the characters behind `middle` are left, the reader stands behind `middle`. -/
theorem offset_of_rest (htext : source.text.toList = front ++ (middle ++ back))
    (hheld : encodedSize (front ++ middle) ≤ source.size)
    (hwithin : Within source front middle reader)
    (hrest : rest reader = source.charsFrom (encodedSize (front ++ middle))) :
    reader.offset = encodedSize (front ++ middle) ∧ reader.overflow = none := by
  obtain ⟨-, count, hcount, hplace⟩ := hwithin
  have hlength : count = middle.length := by
    rw [charsFrom_of_held htext hheld, List.length_append, reported, List.length_map,
      hrest] at hcount
    omega
  obtain ⟨hoffset, hoverflow⟩ := hplace (Nat.le_of_eq hlength)
  rw [hlength, List.take_length] at hoffset
  exact ⟨hoffset, hoverflow⟩

end ByteReader.Within

/-- Advancing and committing leave the source and the start of the token alone. -/
theorem Nesting.run_keeps_tokenStart (nesting : Nesting ByteReader) :
    nesting.run.reader.source = nesting.reader.source ∧
      nesting.run.reader.tokenStart = nesting.reader.tokenStart :=
  run_holds
    (fun reader : ByteReader ↦ reader.source = nesting.reader.source ∧
      reader.tokenStart = nesting.reader.tokenStart)
    (fun _ hkept ↦ hkept) (fun _ hkept ↦ hkept) (fun _ hkept ↦ hkept) ⟨rfl, rfl⟩

/-! ### Code and payloads -/

/-- The delimiter that closes a group which commits is one byte. -/
theorem Enclosure.encodedSize_closing {group : Enclosure} (hcommits : group.commits = true) :
    encodedSize group.closing = 1 := by
  cases group with
  | comment => cases hcommits
  | code => rfl
  | bracket => rfl

/-- The offsets in front of a closing delimiter and behind it. -/
theorem Enclosure.encodedSize_closed {group : Enclosure} (hcommits : group.commits = true)
    (front middle : List Char) :
    encodedSize (front ++ (middle ++ ' ' :: group.closing)) =
      encodedSize (front ++ (middle ++ [' '])) + 1 := by
  have hsplit : front ++ (middle ++ ' ' :: group.closing) =
      (front ++ (middle ++ [' '])) ++ group.closing := by
    simp only [List.append_assoc, List.cons_append, List.nil_append]
  rw [hsplit, encodedSize_append, Enclosure.encodedSize_closing hcommits]

/-- Assumes: a group that commits, entered behind `front` in a text which goes on with `middle`, a
space and the closing delimiter of the group, held up to there, and a run that finds the group
complete with what is behind the delimiter left. The reader stands behind the closing delimiter and
the token ends in front of it. -/
theorem reader_run_enter {group : Enclosure} (hcommits : group.commits = true) {source : Source}
    {front middle back : List Char}
    (htext : source.text.toList = front ++ ((middle ++ ' ' :: group.closing) ++ back))
    (hheld : encodedSize (front ++ (middle ++ ' ' :: group.closing)) ≤ source.size)
    (tokenStart : Nat) (committed : Option Nat) (context : Context)
    (hverdict : (Nesting.enter group []
      (ByteReader.mk source (encodedSize front) tokenStart committed none) context).run.verdict =
        (true, source.charsFrom (encodedSize (front ++ (middle ++ ' ' :: group.closing))))) :
    let stop := encodedSize (front ++ (middle ++ [' ']))
    (Nesting.enter group []
      (ByteReader.mk source (encodedSize front) tokenStart committed none) context).run.reader =
        ⟨source, stop + 1, tokenStart, some stop, none⟩ := by
  intro stop
  let reader : ByteReader := ⟨source, encodedSize front, tokenStart, committed, none⟩
  obtain ⟨hmatched, hrest⟩ := Outcome.verdict_eq_iff.mp hverdict
  have hentered : (Nesting.enter group [] reader context).reader = commit reader := by
    rw [Nesting.enter, Enclosure.mark, if_pos hcommits]
  have hwithin : ByteReader.Within source front (middle ++ ' ' :: group.closing)
      (Nesting.enter group [] reader context).run.reader := by
    refine run_holds _ (ByteReader.Within.advance_within htext hheld)
      (ByteReader.Within.seek_within htext hheld) ByteReader.Within.commit_within ?_
    rw [hentered]
    refine ⟨rfl, 0, Nat.zero_add _, fun _ ↦ ⟨?_, rfl⟩⟩
    rw [List.take_zero, List.append_nil]
    rfl
  obtain ⟨hoffset, hoverflow⟩ := hwithin.offset_of_rest htext hheld hrest
  rw [Enclosure.encodedSize_closed hcommits] at hoffset hheld
  change _ = stop + 1 at hoffset
  obtain ⟨-, htokenStart⟩ := (Nesting.enter group [] reader context).run_keeps_tokenStart
  rw [hentered] at htokenStart
  have hcommitted : (Nesting.enter group [] reader context).run.reader.committed = some stop := by
    rcases (committed_run_enter hcommits hmatched).committed_cases with
      hbehind | ⟨-, -, -, hpercent⟩
    · rw [hbehind, hoffset, Nat.add_sub_cancel]
    · -- Two bytes in front of the reader stands the space.
      have hbefore : stop = encodedSize (front ++ middle) + 1 := by
        change encodedSize (front ++ (middle ++ [' '])) = _
        rw [← List.append_assoc, encodedSize_append]
        rfl
      have hspace : source.byteAt (encodedSize (front ++ middle)) = leadByte ' ' := by
        have hsplit : source.text.toList =
            (front ++ middle) ++ ' ' :: (group.closing ++ back) := by
          rw [htext]
          simp only [List.append_assoc, List.cons_append]
        refine byteAt_encodedSize hsplit ?_
        omega
      rw [hoffset, show stop + 1 - 2 = encodedSize (front ++ middle) by omega, hwithin.source_eq,
        hspace] at hpercent
      exact absurd hpercent (by decide)
  rw [ByteReader.mk.injEq]
  exact ⟨hwithin.source_eq, hoffset, htokenStart, hcommitted, hoverflow⟩

namespace Items

variable {group : Enclosure}

/-- The items of a group as a text, up to the closing delimiter of the group. -/
def content (items : Items group) : String := String.ofList (items.text ++ [' '])

/-- A source that holds the items of a group and its closing delimiter between two other texts. -/
def sourceBetween (items : Items group) (front tail : String) : Source :=
  ⟨front ++ items.content ++ String.ofList group.closing ++ tail⟩

variable (items : Items group) (front tail : String)

theorem toList_sourceBetween :
    (items.sourceBetween front tail).text.toList =
      front.toList ++ ((items.text ++ ' ' :: group.closing) ++ tail.toList) := by
  simp only [sourceBetween, content, String.toList_append, String.toList_ofList, List.append_assoc,
    List.cons_append, List.nil_append]

/-- The offset behind the last space of the items. -/
theorem encodedSize_stop :
    encodedSize (front.toList ++ (items.text ++ [' '])) =
      front.utf8ByteSize + items.content.utf8ByteSize := by
  rw [encodedSize_append, encodedSize_toList, encodedSize_eq_utf8ByteSize]
  rfl

/-- The offset behind the closing delimiter of a group that commits. -/
theorem encodedSize_closed (hcommits : group.commits = true) :
    encodedSize (front.toList ++ (items.text ++ ' ' :: group.closing)) =
      front.utf8ByteSize + items.content.utf8ByteSize + 1 := by
  rw [Enclosure.encodedSize_closed hcommits, encodedSize_stop]

/-- The recognizer of a group that commits reads written items up to their closing delimiter, if the
offsets reach that far. -/
theorem run_enter_written (hcommits : group.commits = true) (tokenStart : Nat)
    (committed : Option Nat) (context : Context)
    (hfits : front.utf8ByteSize + items.content.utf8ByteSize + 1 < UInt32.size) :
    let source := items.sourceBetween front tail
    let stop := front.utf8ByteSize + items.content.utf8ByteSize
    let outcome := (Nesting.enter group []
      (ByteReader.mk source front.utf8ByteSize tokenStart committed none) context).run
    outcome.matched = true ∧
      outcome.reader = ⟨source, stop + 1, tokenStart, some stop, none⟩ := by
  intro source stop outcome
  have htext := items.toList_sourceBetween front tail
  have hheld :
      encodedSize (front.toList ++ (items.text ++ ' ' :: group.closing)) ≤ source.size := by
    rw [← List.append_assoc] at htext
    refine encodedSize_le_size htext ?_
    rw [items.encodedSize_closed front hcommits]
    exact hfits
  have hverdict : outcome.verdict = (true,
      source.charsFrom (encodedSize (front.toList ++ (items.text ++ ' ' :: group.closing)))) := by
    refine items.verdict_run_enter_closed context ?_
    change source.charsFrom front.utf8ByteSize = _
    rw [← encodedSize_toList, charsFrom_of_held htext hheld, reported_append, reported_cons,
      List.append_assoc]
    rfl
  refine ⟨(Outcome.verdict_eq_iff.mp hverdict).1, ?_⟩
  have hreader := reader_run_enter hcommits htext hheld tokenStart committed context (by
    rw [encodedSize_toList]
    exact hverdict)
  rw [items.encodedSize_stop front, encodedSize_toList] at hreader
  exact hreader

/-- Assumes: a source that is held up to the closing delimiter and no further. The group is not
found complete. -/
theorem matched_run_enter_lost (tokenStart : Nat) (committed : Option Nat) (context : Context)
    (hcut : front.utf8ByteSize + items.content.utf8ByteSize = sizeLimit) :
    (Nesting.enter group [] (ByteReader.mk (items.sourceBetween front tail) front.utf8ByteSize
      tokenStart committed none) context).run.matched = false := by
  have htext : (items.sourceBetween front tail).text.toList =
      front.toList ++ ((items.text ++ [' ']) ++ (group.closing ++ tail.toList)) := by
    rw [toList_sourceBetween]
    simp only [List.append_assoc, List.cons_append, List.nil_append]
  have hsize : (items.sourceBetween front tail).size =
      encodedSize (front.toList ++ (items.text ++ [' '])) := by
    rw [← List.append_assoc] at htext
    exact size_eq_of_encodedSize_eq htext ((items.encodedSize_stop front).trans hcut)
  have hrest : rest (ByteReader.mk (items.sourceBetween front tail) front.utf8ByteSize tokenStart
      committed none) = reported items.text ++ [0x20] := by
    change (items.sourceBetween front tail).charsFrom front.utf8ByteSize = _
    rw [← encodedSize_toList, charsFrom_of_size_eq htext hsize, reported_append]
    rfl
  have hverdict := items.verdict_run_enter_text context hrest
  rw [DepthCounter.run] at hverdict
  exact (Outcome.verdict_eq_iff.mp hverdict).1

/-- The items of a group with a string literal of the given length and nothing else. -/
def ofStringLength (group : Enclosure) (length : Nat) : Items group :=
  .lexeme (.string (List.replicate length (.plain 'a' (by decide) (by decide)))) .nil

theorem text_ofStringLength (group : Enclosure) (length : Nat) :
    (ofStringLength group length).text =
      ' ' :: '\x22' :: (List.replicate length 'a' ++ ['\x22']) := by
  have hpieces : (List.replicate length (StringPiece.plain 'a' (by decide) (by decide))).flatMap
      StringPiece.text = List.replicate length 'a' := by
    induction length with
    | zero => rfl
    | succ length ih =>
      rw [List.replicate_succ, List.flatMap_cons, ih]
      rfl
  rw [ofStringLength, text, text, Lexeme.others, hpieces, List.append_nil]
  rfl

theorem encodedSize_ofStringLength (group : Enclosure) (length : Nat) :
    encodedSize (ofStringLength group length).text = length + 3 := by
  rw [text_ofStringLength, encodedSize_cons, encodedSize_cons, encodedSize_append,
    encodedSize_replicate]
  change 1 + (1 + (length * 1 + 1)) = _
  omega

end Items

/-- Whatever stands in front and whatever comes after, with any token under construction and in
every context: the recognizer of code, in front of written items and a closing brace, finds its
construct complete, if the offset behind the brace is a number of 32 bits. It stops behind the
brace, with the end of the token committed in front of the brace, has come upon no character that
could not be passed, and does no more to the context than to forget its tag. The recognizer of
payloads does the same in front of written items and a closing bracket. -/
theorem written_code_and_payload_consumed (front tail : String) (tokenStart : Nat)
    (committed : Option Nat) (context : Context) :
    (∀ items : Items .code,
      front.utf8ByteSize + items.content.utf8ByteSize + 1 < UInt32.size →
      let source := items.sourceBetween front tail
      let stop := front.utf8ByteSize + items.content.utf8ByteSize
      let outcome :=
        readCode (ByteReader.mk source front.utf8ByteSize tokenStart committed none) context
      outcome.matched = true ∧ outcome.reader = ⟨source, stop + 1, tokenStart, some stop, none⟩ ∧
        outcome.context.Recalls context) ∧
      ∀ items : Items .bracket,
        front.utf8ByteSize + items.content.utf8ByteSize + 1 < UInt32.size →
        let source := items.sourceBetween front tail
        let stop := front.utf8ByteSize + items.content.utf8ByteSize
        let outcome :=
          readPayload (ByteReader.mk source front.utf8ByteSize tokenStart committed none) context
        outcome.matched = true ∧ outcome.reader = ⟨source, stop + 1, tokenStart, some stop, none⟩ ∧
          outcome.context.Recalls context := by
  constructor
  · intro items hfits source stop outcome
    obtain ⟨hmatched, hreader⟩ :=
      items.run_enter_written front tail rfl tokenStart committed context hfits
    exact ⟨hmatched, hreader, (recognizers_recall _ context).2.1⟩
  · intro items hfits source stop outcome
    obtain ⟨hmatched, hreader⟩ :=
      items.run_enter_written front tail rfl tokenStart committed context hfits
    exact ⟨hmatched, hreader, (recognizers_recall _ context).2.2.2⟩

/-- Code with closing braces in a block, a quoted text, character literals, a comment and a string,
none of which is its own. -/
theorem written_code_and_payload_consumed_witness :
    let comment : Items .comment := .single '\x7d' ⟨by decide, by decide, rfl, by decide⟩ .nil
    let block : Items .code :=
      .quoted ⟨[], ['\x7d'], nofun, by decide⟩ (by decide)
        (.lexeme (.char (.plain '\x7d' (by decide) (by decide)))
          (.lexeme (.char (.escape ['x', '7', 'd'] (by decide +kernel) (by decide +kernel)))
            (.nested (.inl rfl) comment .nil)))
    let items : Items .code :=
      .nested (.inr rfl) block (.lexeme (.string [.plain '\x7d' (by decide) (by decide)]) .nil)
    let outcome :=
      readCode (ByteReader.mk (items.sourceBetween "\x7b" "\x7d") 1 1 none none) .initial
    items.content = " \x7b \x7b|\x7d|\x7d '\x7d' '\\x7d' (* \x7d *) \x7d \"\x7d\" " ∧
      items.content.utf8ByteSize + 2 < UInt32.size ∧ outcome.matched = true ∧
      outcome.reader.offset = 36 ∧ outcome.reader.committed = some 35 := by
  intro comment block items outcome
  have hcontent : items.content =
      " \x7b \x7b|\x7d|\x7d '\x7d' '\\x7d' (* \x7d *) \x7d \"\x7d\" " := by decide
  have hsize : items.content.utf8ByteSize = 34 := by
    rw [hcontent]
    rfl
  have hfits : "\x7b".utf8ByteSize + items.content.utf8ByteSize + 1 < UInt32.size := by
    rw [hsize]
    decide
  obtain ⟨hmatched, hreader, -⟩ :=
    (written_code_and_payload_consumed "\x7b" "\x7d" 1 none .initial).1 items hfits
  rw [hsize] at hreader
  exact ⟨hcontent, by rw [hsize]; decide, hmatched, congrArg ByteReader.offset hreader,
    congrArg ByteReader.committed hreader⟩

/-- Of code whose closing brace is the first byte that cannot be addressed, the recognizer does not
find the end. -/
theorem written_code_lost_at_cut :
    let items : Items .code := .ofStringLength .code 4294967291
    let reader := ByteReader.mk (items.sourceBetween "" "") "".utf8ByteSize 0 none none
    items.content.utf8ByteSize = 4294967295 ∧ (readCode reader .initial).matched = false := by
  intro items reader
  have hcontent : items.content.utf8ByteSize = 4294967295 := by
    rw [Items.content, ← encodedSize_eq_utf8ByteSize, encodedSize_append,
      Items.encodedSize_ofStringLength]
    rfl
  have hcut : "".utf8ByteSize + items.content.utf8ByteSize = sizeLimit := by
    rw [hcontent]
    rfl
  refine ⟨hcontent, ?_⟩
  rw [readCode]
  exact items.matched_run_enter_lost "" "" 0 none .initial hcut

/-! ### Comments -/

/-- Assumes: a reader in front of a comment that is written up to the space in front of its closing
delimiter, in a context outside of strings, and a request that permits comments. The comment is
tried, and it is found if the characters behind the space close it. -/
theorem start_written_comment {ρ : Type} [SeekReader ρ] (tree : Items .comment) {reader : ρ}
    {context : Context} {requested : Request} {chars : List UInt8}
    (hpermits : requested.permits .comment = true) (houtside : context.inString = false)
    (hrest : rest reader =
      reported (Enclosure.comment.opening ++ tree.text) ++ 0x20 :: chars) :
    Attempt.start requested reader context = Attempt.ofComment (advance reader) context ∧
      (readComment (advance reader) context).verdict = Enclosure.comment.counter.run 1 chars := by
  have hsplit : rest reader =
      Ascii.parenOpen :: Ascii.star :: (reported tree.text ++ 0x20 :: chars) := by
    rw [hrest, reported_append]
    rfl
  have hparen : current reader = Ascii.parenOpen := by
    rw [current_eq_headD, hsplit, List.headD_cons]
  have hstar : current (advance reader) = Ascii.star := by
    rw [current_eq_headD, rest_advance, hsplit, List.tail_cons, List.headD_cons]
  have hinside : rest (advance (advance reader)) = reported tree.text ++ 0x20 :: chars := by
    rw [rest_advance, rest_advance, hsplit, List.tail_cons, List.tail_cons]
  constructor
  · exact Attempt.start_of_comment ⟨houtside, hpermits, hparen⟩ hstar
  · rw [readComment, if_pos hstar]
    exact tree.verdict_run_enter_text context hinside

/-- Assumes: a text that begins with no blank and is held up to the end of `front`, and a comment
that is found at its start with what is behind `front` left. The scan finds a fragment that reaches
up to there, and comes upon no character that cannot be passed. -/
theorem scanAt_of_comment {source : Source} {requested : Request} {context : Context}
    {outcome : Outcome ByteReader} {front back : List Char}
    (htext : source.text.toList = [] ++ (front ++ back))
    (hheld : encodedSize ([] ++ front) ≤ source.size) (hblank : isBlank (source.byteAt 0) = false)
    (hstart : Attempt.start requested ⟨source, 0, 0, none, none⟩ context =
      ⟨some (.comment, true), commit outcome.reader, outcome.context⟩)
    (hrest : rest outcome.reader = source.charsFrom (encodedSize ([] ++ front))) :
    let finding := source.scanAt 0 requested context
    finding.fragment = some ⟨.comment, 0, encodedSize front⟩ ∧
      finding.context = outcome.context ∧ finding.overflow = none := by
  intro finding
  have hfirst : source.afterBlanks (min 0 source.size) = 0 := by
    rw [Nat.zero_min]
    exact afterBlanks_of_not_isBlank hblank
  have hfound : scan requested (source.readerAt 0) context = ⟨some .comment,
      .tried requested .comment true outcome.context.inString, commit outcome.reader,
      outcome.context⟩ := by
    simp only [scan, skipWhile_readerAt, hfirst, hstart, Attempt.kind?, Attempt.event]
  have hwithin := scan_keeps_reader (ByteReader.Within source [] front)
    (ByteReader.Within.advance_within htext hheld) (ByteReader.Within.seek_within htext hheld)
    ByteReader.Within.commit_within requested (source.readerAt 0) context (by
      rw [skipWhile_readerAt, hfirst]
      exact ⟨rfl, 0, Nat.zero_add _, fun _ ↦ ⟨rfl, rfl⟩⟩)
  have htoken := tokenAt_scan source 0 requested context
  rw [hfound] at hwithin htoken
  obtain ⟨hoffset, hoverflow⟩ := hwithin.offset_of_rest htext hheld hrest
  have htokenStart : (commit outcome.reader).tokenStart = 0 := htoken.tokenStart_eq.trans hfirst
  have htokenEnd : (commit outcome.reader).tokenEnd = encodedSize front := hoffset
  have hpassed : (commit outcome.reader).overflow = none := hoverflow
  refine ⟨?_, ?_, ?_⟩
  · simp only [finding, scanAt, hfound, Option.map_some, htokenStart, htokenEnd, Nat.sub_zero]
  · simp only [finding, scanAt, hfound]
  · simp only [finding, scanAt, hfound, hpassed]

/-- Assumes: a request that permits comments, in a context outside of strings, and a written comment
of which all but the closing parenthesis can be addressed. A scan of it finds nothing. -/
theorem fragment_scanAt_written_lost {tree : Items .comment} {requested : Request}
    {context : Context} (hsize : encodedSize tree.enclosed = UInt32.size)
    (hpermits : requested.permits .comment = true) (houtside : context.inString = false) :
    (Source.scanAt ⟨String.ofList tree.enclosed⟩ 0 requested context).fragment = none := by
  let source : Source := ⟨String.ofList tree.enclosed⟩
  let reader : ByteReader := ⟨source, 0, 0, none, none⟩
  let front := Enclosure.comment.opening ++ tree.text ++ [' ', '*']
  have hsplit : tree.enclosed = front ++ [')'] := by
    simp only [Items.enclosed, front, Enclosure.closing, List.append_assoc, List.cons_append,
      List.nil_append]
  have htext : source.text.toList = [] ++ (front ++ [')']) := by
    rw [String.toList_ofList, hsplit, List.nil_append]
  have hfront : encodedSize ([] ++ front) = sizeLimit := by
    rw [hsplit, encodedSize_append] at hsize
    exact Nat.succ.inj hsize
  have hheld : source.size = encodedSize ([] ++ front) := by
    rw [← List.append_assoc] at htext
    exact size_eq_of_encodedSize_eq htext hfront
  have hrest : rest reader =
      reported (Enclosure.comment.opening ++ tree.text) ++ [0x20, Ascii.star] := by
    have hwalk : rest reader = reported front := charsFrom_of_size_eq htext hheld
    rw [hwalk, reported_append]
    rfl
  obtain ⟨hstart, hverdict⟩ := start_written_comment tree hpermits houtside hrest
  have hopen : Enclosure.comment.counter.run 1 [Ascii.star] = (false, []) := by
    rw [DepthCounter.run]
    change commentCounter.run 1 [] = _
    rw [DepthCounter.run]
  have hmatched := (Outcome.verdict_eq_iff.mp (hverdict.trans hopen)).1
  have hfirst : source.afterBlanks (min 0 source.size) = 0 := by
    rw [Nat.zero_min]
    refine afterBlanks_of_not_isBlank ?_
    change isBlank (current reader) = false
    rw [current_eq_headD, hrest]
    rfl
  have hkind : (scan requested (source.readerAt 0) context).kind = none := by
    rw [scan, skipWhile_readerAt, hfirst, hstart]
    simp only [Attempt.ofComment, Attempt.ofOutcome, hmatched, Attempt.kind?]
  exact Option.map_eq_none_iff.mpr hkind

/-- Assumes: a request that permits comments, in a context outside of strings. Every written comment
whose length is a number of 32 bits, at the start of a text and whatever comes after it, is found by
a scan as a fragment of exactly its own length. The scan comes upon no character that cannot be
passed, and the context loses its tag at most. -/
theorem written_comment_consumed (tree : Items .comment) (tail : String) (requested : Request)
    (context : Context) (hfits : (String.ofList tree.enclosed).utf8ByteSize < UInt32.size)
    (hpermits : requested.permits .comment = true) (houtside : context.inString = false) :
    let printed := String.ofList tree.enclosed
    let finding := Source.scanAt ⟨printed ++ tail⟩ 0 requested context
    finding.fragment = some ⟨.comment, 0, printed.utf8ByteSize⟩ ∧
      finding.context.Recalls context ∧ finding.overflow = none := by
  intro printed finding
  let source : Source := ⟨printed ++ tail⟩
  let reader : ByteReader := ⟨source, 0, 0, none, none⟩
  have htext : source.text.toList = [] ++ (tree.enclosed ++ tail.toList) := by
    rw [String.toList_append, String.toList_ofList, List.nil_append]
  rw [← encodedSize_eq_utf8ByteSize] at hfits
  have hheld : encodedSize ([] ++ tree.enclosed) ≤ source.size := encodedSize_le_size htext hfits
  have hrest : rest reader = reported tree.enclosed ++
      source.charsFrom (encodedSize ([] ++ tree.enclosed)) := charsFrom_of_held htext hheld
  have hblank : isBlank (source.byteAt 0) = false := by
    change isBlank (current reader) = false
    rw [current_eq_headD, hrest]
    rfl
  have hopened : rest reader = reported (Enclosure.comment.opening ++ tree.text) ++ 0x20 ::
      (reported Enclosure.comment.closing ++
        source.charsFrom (encodedSize ([] ++ tree.enclosed))) := by
    rw [hrest, Items.enclosed, ← List.append_assoc, reported_append, reported_cons,
      List.append_assoc, List.cons_append]
    rfl
  obtain ⟨hstart, hverdict⟩ := start_written_comment tree hpermits houtside hopened
  rw [Enclosure.run_closing_one] at hverdict
  obtain ⟨hmatched, hleft⟩ := Outcome.verdict_eq_iff.mp hverdict
  rw [Attempt.ofComment, if_pos hmatched, Attempt.ofOutcome, hmatched] at hstart
  obtain ⟨hfragment, hcontext, hoverflow⟩ := scanAt_of_comment htext hheld hblank hstart hleft
  rw [encodedSize_eq_utf8ByteSize] at hfragment
  refine ⟨hfragment, ?_, hoverflow⟩
  rw [hcontext]
  exact (recognizers_recall _ context).1

/-- A comment with a double quote as a character literal, a string and a quoted text that hold
closers, and a comment inside, with a closer right after its end. -/
theorem written_comment_consumed_witness :
    let inner : Items .comment :=
      .single '*' ⟨by decide, by decide, rfl, by decide⟩
        (.single 'é' ⟨by decide, by decide, rfl, by decide⟩ .nil)
    let tree : Items .comment :=
      .lexeme (.char (.plain '\x22' (by decide) (by decide)))
        (.lexeme (.string [.escaped '\x22', .plain '*' (by decide) (by decide)])
          (.quoted ⟨['a'], ['*', ')'], List.forall_mem_singleton.mpr rfl, by decide⟩ (by decide)
            (.nested (.inl rfl) inner
              (.lexeme (.word ⟨'x', ['\x27'], rfl, List.forall_mem_singleton.mpr rfl⟩) .nil))))
    String.ofList tree.enclosed = "(* '\"' \"\\\"*\" \x7ba|*)|a\x7d (* * é *) x' *)" ∧
      (String.ofList tree.enclosed).utf8ByteSize < UInt32.size ∧
      (Source.scanAt ⟨String.ofList tree.enclosed ++ "*) \""⟩ 0 ⟨1⟩ .initial).fragment =
        some ⟨.comment, 0, 38⟩ := by
  intro inner tree
  have hprinted : String.ofList tree.enclosed =
      "(* '\"' \"\\\"*\" \x7ba|*)|a\x7d (* * é *) x' *)" := by decide
  have hfits : (String.ofList tree.enclosed).utf8ByteSize < UInt32.size := by
    rw [hprinted]
    decide
  obtain ⟨hfragment, -, -⟩ := written_comment_consumed tree "*) \"" ⟨1⟩ .initial hfits rfl rfl
  refine ⟨hprinted, hfits, hfragment.trans ?_⟩
  rw [hprinted]
  rfl

/-- Of a comment of which all but the closing parenthesis can be addressed, nothing is found. -/
theorem written_comment_lost_at_cut :
    let tree : Items .comment := .ofStringLength .comment 4294967288
    let printed := String.ofList tree.enclosed
    printed.utf8ByteSize = 4294967296 ∧
      (Source.scanAt ⟨printed⟩ 0 ⟨1⟩ .initial).fragment = none := by
  intro tree printed
  have hsize : encodedSize tree.enclosed = UInt32.size := by
    rw [Items.enclosed, encodedSize_append, encodedSize_append, encodedSize_cons,
      Items.encodedSize_ofStringLength]
    rfl
  refine ⟨?_, fragment_scanAt_written_lost hsize rfl rfl⟩
  rw [← encodedSize_eq_utf8ByteSize]
  exact hsize

end GrammarFragments
