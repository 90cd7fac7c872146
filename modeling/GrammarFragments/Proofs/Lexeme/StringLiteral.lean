import Mathlib.Algebra.Group.Nat.Even
import Mathlib.Order.Bounds.Basic
import GrammarFragments.Proofs.Printed.Lexemes
import GrammarFragments.Proofs.Simulation.BulkSearch
import GrammarFragments.Proofs.Spans.Boundaries

/-!
Where a string literal ends. A reader goes forward and passes every backslash together with the
character after it; the law looks back from a quote and counts the backslashes right in front of it,
no further than to the start of the literal (`escapesBefore`). A quote with an even number of them
closes the literal, and the first such quote is the end (`EndsAt`).

What is passed at once, a plain character or an escaped one, holds no such quote, and it does not
change which of the later quotes have an even count (`unescapedAt_cons`, `unescapedAt_escaped`): an
escaped backslash adds two to a count that reaches back to it, and nothing else adds to one. So the
end moves on by the length of what was passed.

The law holds in the units of every reader. For characters that is the list of those still to be
read. For a source that fits it holds in bytes, from every offset, since the bytes that an escaped
character has after its first one are neither quotes nor backslashes (`drop_bytes_finish`). For a
host lexer it holds in codes.

Main statement: `finish_first_unescaped_quote`. Of a text that does not fit, a reader over a source
knows only what is held (`finish_unaware_of_lost_quote`).
-/

set_option autoImplicit false
set_option relaxedAutoImplicit false

namespace GrammarFragments

open Reader

/-! ### What advancing keeps -/

/-- Assumes: a property that advancing and searching keep. Passing the rest of a string literal
keeps it. -/
theorem StringLiteral.finish_keeps {ρ : Type} [SeekReader ρ] (holds : ρ → Prop)
    (hadvance : ∀ reader, holds reader → holds (advance reader))
    (hseek : ∀ reader, holds reader → holds (SeekReader.seek reader)) {reader : ρ}
    (hholds : holds reader) : holds (finish reader) := by
  fun_induction finish reader with
  | case1 reader stop hend => exact hseek reader hholds
  | case2 reader stop hend hescape ih =>
    exact ih (hadvance _ (hadvance _ (hseek reader hholds)))
  | case3 reader stop hend hescape hquote => exact hadvance _ (hseek reader hholds)
  | case4 reader stop hend hescape hquote => exact hseek reader hholds

namespace StringLiteral

/-! ### The law -/

section Law

variable {α : Type} [DecidableEq α]

/-- The number of escape characters that stand right in front of a place, one after the other. -/
def escapesBefore (escape : α) (chars : List α) (place : Nat) : Nat :=
  ((chars.take place).reverse.takeWhile (· == escape)).length

variable (quote escape : α)

/-- At the place stands a quote with an even number of escape characters right in front of it. -/
def UnescapedAt (chars : List α) (place : Nat) : Prop :=
  chars[place]? = some quote ∧ Even (escapesBefore escape chars place)

/-- How many of the characters belong to a literal that starts with them: those up to the first
unescaped quote and the quote itself, or all of them if there is none. -/
inductive EndsAt (chars : List α) : Nat → Prop
  | closed {place : Nat} (hleast : IsLeast {place | UnescapedAt quote escape chars place} place) :
    EndsAt chars (place + 1)
  | unclosed (hnone : ∀ place, ¬ UnescapedAt quote escape chars place) :
    EndsAt chars chars.length

variable {quote escape}

/-- Assumes: a character that is no escape character. It ends every count that reaches back to
it. -/
theorem escapesBefore_cons {char : α} (hchar : char ≠ escape) (chars : List α) (place : Nat) :
    escapesBefore escape (char :: chars) (place + 1) = escapesBefore escape chars place := by
  unfold escapesBefore
  rw [List.take_succ_cons, List.reverse_cons, List.takeWhile_append,
    List.takeWhile_cons_of_neg (by simpa using hchar), List.append_nil]
  split_ifs with hall
  · exact hall.symm
  · rfl

/-- An escape character and the character after it add two to a count that reaches back to them, or
nothing. -/
theorem even_escapesBefore_escaped (char : α) (chars : List α) (place : Nat) :
    Even (escapesBefore escape (escape :: char :: chars) (place + 2)) ↔
      Even (escapesBefore escape chars place) := by
  have hpair : Even (([char] ++ [escape]).takeWhile (· == escape)).length := by
    by_cases hchar : char = escape
    · simp [hchar]
    · simp [hchar]
  unfold escapesBefore
  rw [List.take_succ_cons, List.take_succ_cons, List.reverse_cons, List.reverse_cons,
    List.append_assoc, List.takeWhile_append]
  split_ifs with hall
  · rw [List.length_append, ← hall]
    exact Nat.even_add.trans (iff_true_right hpair)
  · exact Iff.rfl

/-- A plain character in front moves the unescaped quotes by one place. -/
theorem unescapedAt_cons {char : α} (hquote : char ≠ quote) (hescape : char ≠ escape)
    (chars : List α) (place : Nat) :
    UnescapedAt quote escape (char :: chars) place ↔
      ∃ later, place = 1 + later ∧ UnescapedAt quote escape chars later := by
  constructor
  · rintro ⟨hplace, heven⟩
    obtain _ | later := place
    · exact absurd (Option.some_inj.mp hplace) hquote
    · rw [escapesBefore_cons hescape] at heven
      exact ⟨later, Nat.add_comm later 1, hplace, heven⟩
  · rintro ⟨later, rfl, hplace, heven⟩
    rw [← escapesBefore_cons hescape] at heven
    rw [Nat.add_comm]
    exact ⟨hplace, heven⟩

/-- Assumes: an escape character that is not the quote. With a character after it, which is escaped,
it moves the unescaped quotes by two places. -/
theorem unescapedAt_escaped (hescape : escape ≠ quote) (char : α) (chars : List α) (place : Nat) :
    UnescapedAt quote escape (escape :: char :: chars) place ↔
      ∃ later, place = 2 + later ∧ UnescapedAt quote escape chars later := by
  constructor
  · rintro ⟨hplace, heven⟩
    obtain _ | _ | later := place
    · exact absurd (Option.some_inj.mp hplace) hescape
    · simp [escapesBefore] at heven
    · rw [even_escapesBefore_escaped] at heven
      exact ⟨later, Nat.add_comm later 2, hplace, heven⟩
  · rintro ⟨later, rfl, hplace, heven⟩
    rw [← even_escapesBefore_escaped char] at heven
    rw [Nat.add_comm]
    exact ⟨hplace, heven⟩

theorem EndsAt.le_length {chars : List α} {stop : Nat} (hends : EndsAt quote escape chars stop) :
    stop ≤ chars.length := by
  obtain ⟨hleast⟩ | - := hends
  · obtain ⟨hlt, -⟩ := List.getElem?_eq_some_iff.mp hleast.1.1
    exact hlt
  · exact Nat.le_refl _

/-- Assumes: some characters in front that hold no unescaped quote and leave those behind them as
they are. The end moves on by the number of these characters. -/
theorem EndsAt.behind {front : Nat} {whole chars : List α} {stop : Nat}
    (hlength : whole.length = front + chars.length)
    (hmoved : ∀ place, UnescapedAt quote escape whole place ↔
      ∃ later, place = front + later ∧ UnescapedAt quote escape chars later)
    (hends : EndsAt quote escape chars stop) : EndsAt quote escape whole (front + stop) := by
  obtain @⟨place, hleast⟩ | ⟨hnone⟩ := hends
  · have hwhole : IsLeast {place | UnescapedAt quote escape whole place} (front + place) := by
      refine ⟨(hmoved _).mpr ⟨place, rfl, hleast.1⟩, ?_⟩
      intro other hother
      obtain ⟨later, rfl, hlater⟩ := (hmoved other).mp hother
      exact Nat.add_le_add_left (hleast.2 hlater) front
    exact .closed hwhole
  · rw [← hlength]
    refine .unclosed fun place hplace ↦ ?_
    obtain ⟨later, -, hlater⟩ := (hmoved place).mp hplace
    exact hnone later hlater

/-- Assumes: a translation of characters under which the quote and the escape character come from
nothing but themselves. The law is the same before and after it. -/
theorem EndsAt.of_map {β : Type} [DecidableEq β] {translate : β → α} {otherQuote otherEscape : β}
    (hquote : ∀ char, translate char = quote ↔ char = otherQuote)
    (hescape : ∀ char, translate char = escape ↔ char = otherEscape) {chars : List β} {stop : Nat}
    (hends : EndsAt quote escape (chars.map translate) stop) :
    EndsAt otherQuote otherEscape chars stop := by
  have hcount : ∀ place, escapesBefore escape (chars.map translate) place =
      escapesBefore otherEscape chars place := by
    intro place
    have hclass : (· == escape) ∘ translate = (· == otherEscape) := by
      ext char
      simp [hescape]
    unfold escapesBefore
    rw [← List.map_take, ← List.map_reverse, List.takeWhile_map, List.length_map, hclass]
  have hplace : ∀ place, UnescapedAt quote escape (chars.map translate) place ↔
      UnescapedAt otherQuote otherEscape chars place := by
    intro place
    unfold UnescapedAt
    rw [hcount, List.getElem?_map, Option.map_eq_some_iff]
    simp only [hquote, exists_eq_right]
  obtain ⟨hleast⟩ | ⟨hnone⟩ := hends
  · simp only [hplace] at hleast
    exact .closed hleast
  · rw [List.length_map]
    exact .unclosed fun place ↦ mt (hplace place).mpr (hnone place)

end Law

/-! ### Characters -/

theorem finish_nil : finish ([] : List UInt8) = [] := by
  rw [finish]
  rfl

theorem finish_backslash : finish [Ascii.backslash] = [] := by
  rw [finish]
  exact finish_nil

/-- A literal is passed up to its end, in a list of characters. -/
theorem exists_endsAt_finish : ∀ chars : List UInt8, ∃ stop,
    EndsAt Ascii.doubleQuote Ascii.backslash chars stop ∧ finish chars = chars.drop stop
  | [] => by
    refine ⟨0, .unclosed ?_, finish_nil⟩
    rintro place ⟨hplace, -⟩
    simp at hplace
  | first :: chars => by
    by_cases hquote : first = Ascii.doubleQuote
    · have hfirst : UnescapedAt Ascii.doubleQuote Ascii.backslash (first :: chars) 0 := by
        refine ⟨?_, ?_⟩
        · rw [hquote, List.getElem?_cons_zero]
        · simp [escapesBefore]
      refine ⟨0 + 1, .closed ⟨hfirst, fun _ _ ↦ Nat.zero_le _⟩, ?_⟩
      rw [hquote, finish_quote, List.drop_succ_cons, List.drop_zero]
    by_cases hescape : first = Ascii.backslash
    · subst hescape
      obtain _ | ⟨second, chars⟩ := chars
      · refine ⟨1, .unclosed ?_, finish_backslash⟩
        rintro (_ | place) ⟨hplace, -⟩
        · exact hquote (Option.some_inj.mp hplace)
        · simp at hplace
      · obtain ⟨stop, hends, hfinish⟩ := exists_endsAt_finish chars
        refine ⟨2 + stop, hends.behind ?_ (unescapedAt_escaped hquote second chars), ?_⟩
        · rw [List.length_cons, List.length_cons]
          omega
        · rw [finish_escaped, hfinish, ← List.drop_drop, List.drop_succ_cons, List.drop_succ_cons,
            List.drop_zero]
    · have hplain : isStringStop first = false := by simp [isStringStop, hquote, hescape]
      obtain ⟨stop, hends, hfinish⟩ := exists_endsAt_finish chars
      refine ⟨1 + stop, hends.behind ?_ (unescapedAt_cons hquote hescape chars), ?_⟩
      · rw [List.length_cons, Nat.add_comm]
      · rw [finish_plain chars hplain, hfinish, ← List.drop_drop, List.drop_succ_cons,
          List.drop_zero]

/-! ### Bytes -/

/-- A search from the place that it finds finds that place. -/
theorem find_find (source : Source) (stop : UInt8 → Bool) (offset : Nat) :
    source.find stop (source.find stop offset) = source.find stop offset := by
  rcases Nat.lt_or_ge (source.find stop offset) source.size with hfound | hend
  · exact Source.find_of_stop (Source.stop_byteAt_find hfound)
  · exact Source.find_of_le hend

/-- The search over the bytes of a source is the search in the list of them. -/
theorem seek_drop_bytes (source : Source) (offset : Nat) :
    SeekReader.seek (source.bytes.drop offset) =
      source.bytes.drop (source.find isStringStop offset) := by
  rw [source.find_eq_add_findIdx, ← List.drop_drop]
  exact List.dropWhile_eq_drop_findIdx_not.trans (by simp)

/-- Assumes: offsets from which the same string stop is found. What is passed from them ends at the
same place. -/
theorem finish_drop_bytes {source : Source} {offset other : Nat}
    (hfind : source.find isStringStop offset = source.find isStringStop other) :
    finish (source.bytes.drop offset) = finish (source.bytes.drop other) := by
  refine finish_of_seek_eq ?_
  rw [seek_drop_bytes, seek_drop_bytes, hfind]

/-- A backslash of a source and the character after it, with all of its bytes, are passed like a
backslash and one byte. -/
theorem finish_drop_backslash {source : Source} {offset : Nat} (hoffset : offset < source.size)
    (hescape : source.byteAt offset = Ascii.backslash) :
    finish (source.bytes.drop offset) =
      finish (source.bytes.drop (source.next (source.next offset))) := by
  have hnext : source.next offset = offset + 1 :=
    Source.next_eq_succ_of_isAscii hoffset (hescape ▸ by decide)
  rw [hnext, Source.drop_bytes_of_lt hoffset, hescape]
  rcases Nat.lt_or_ge (offset + 1) source.size with hlt | hend
  · rw [Source.drop_bytes_of_lt hlt, finish_escaped]
    refine finish_drop_bytes (Source.find_of_forall_lt (Source.lt_next hlt) (Source.next_le hlt) ?_)
    intro passed hpassed hbefore
    exact asciiOnly_isStringStop _ (Source.le_byteAt_of_lt_next hpassed hbefore)
  · rw [Source.next_of_le hend, Source.drop_bytes_of_le hend, finish_nil, finish_backslash]

/-- The bytes that a string literal leaves of a source are those that it leaves of their list. -/
theorem drop_bytes_finish (reader : ByteReader) :
    reader.source.bytes.drop (finish reader).offset =
      finish (reader.source.bytes.drop reader.offset) := by
  fun_induction finish reader with
  | case1 reader stop hend =>
    have hsize : reader.source.size ≤ stop.offset := ByteReader.atEnd_iff.mp hend
    rw [← finish_drop_bytes (find_find reader.source isStringStop reader.offset)]
    change reader.source.bytes.drop stop.offset = finish (reader.source.bytes.drop stop.offset)
    rw [Source.drop_bytes_of_le hsize, finish_nil]
  | case2 reader stop hend hescape ih =>
    have hsize : stop.offset < reader.source.size :=
      ByteReader.atEnd_eq_false_iff.mp (Bool.not_eq_true _ ▸ hend)
    rw [← finish_drop_bytes (find_find reader.source isStringStop reader.offset)]
    exact ih.trans (finish_drop_backslash hsize hescape).symm
  | case3 reader stop hend hescape hquote =>
    have hsize : stop.offset < reader.source.size :=
      ByteReader.atEnd_eq_false_iff.mp (Bool.not_eq_true _ ▸ hend)
    have hbyte : reader.source.byteAt stop.offset = Ascii.doubleQuote := hquote
    rw [← finish_drop_bytes (find_find reader.source isStringStop reader.offset)]
    change reader.source.bytes.drop (reader.source.next stop.offset) =
      finish (reader.source.bytes.drop stop.offset)
    rw [Source.drop_bytes_of_lt hsize, hbyte, finish_quote,
      Source.next_eq_succ_of_isAscii hsize (hbyte ▸ by decide)]
  | case4 reader stop hend hescape hquote =>
    have hstop := isStringStop_current_seek (Bool.not_eq_true _ ▸ hend)
    simp only [isStringStop, Bool.or_eq_true, beq_iff_eq] at hstop
    exact absurd hstop (not_or.mpr ⟨hquote, hescape⟩)

/-- At the end of what is held there is nothing to pass. -/
theorem finish_of_size_le {reader : ByteReader} (hend : reader.source.size ≤ reader.offset) :
    finish reader = reader := by
  have hseek : SeekReader.seek reader = reader := by
    change reader.seekBytes = reader
    rw [ByteReader.seekBytes, Source.find_of_le hend]
  rw [finish]
  simp only [hseek, if_pos (ByteReader.atEnd_iff.mpr hend)]

/-- A string literal moves the reader over a source that fits to its end, counted in bytes, and
changes nothing else. -/
theorem exists_endsAt_finish_byteReader {reader : ByteReader} (hfits : reader.source.Fits) :
    ∃ stop,
    EndsAt Ascii.doubleQuote Ascii.backslash (reader.source.bytes.drop reader.offset) stop ∧
      finish reader = { reader with offset := reader.offset + stop } := by
  obtain ⟨stop, hends, hfinish⟩ :=
    exists_endsAt_finish (reader.source.bytes.drop reader.offset)
  have hmoved : ∃ offset, finish reader = { reader with offset := offset } ∧
      reader.offset ≤ offset ∧ offset ≤ max reader.offset reader.source.size := by
    refine finish_keeps (fun moved ↦ ∃ offset, moved = { reader with offset := offset } ∧
      reader.offset ≤ offset ∧ offset ≤ max reader.offset reader.source.size) ?_ ?_
      ⟨reader.offset, rfl, Nat.le_refl _, Nat.le_max_left _ _⟩
    · rintro moved ⟨offset, rfl, hle, hmax⟩
      refine ⟨reader.source.next offset, ByteReader.advanceChar_of_fits hfits, ?_⟩
      rcases Nat.lt_or_ge offset reader.source.size with hlt | hend
      · have hpassed := Source.lt_next hlt
        have hinside := Source.next_le hlt
        omega
      · rw [Source.next_of_le hend]
        exact ⟨hle, hmax⟩
    · rintro moved ⟨offset, rfl, hle, hmax⟩
      have hfound := reader.source.le_find isStringStop offset
      refine ⟨reader.source.find isStringStop offset, rfl, Nat.le_trans hle hfound, ?_⟩
      rcases Nat.lt_or_ge offset reader.source.size with hlt | hend
      · have hinside : reader.source.find isStringStop offset ≤ reader.source.size :=
          Source.find_le (Nat.le_of_lt hlt)
        omega
      · rw [Source.find_of_le hend]
        exact hmax
  obtain ⟨offset, hreader, hle, hmax⟩ := hmoved
  have hleft := congrArg List.length ((drop_bytes_finish reader).trans hfinish)
  have hstop := hends.le_length
  rw [hreader] at hleft ⊢
  simp only [List.length_drop, Source.length_bytes] at hleft hstop
  refine ⟨stop, hends, ?_⟩
  have hoffset : offset = reader.offset + stop := by omega
  rw [hoffset]

/-! ### Codes -/

/-- Assumes: an ASCII byte. It reports the code that has its value, and no other. -/
theorem reportedByte_eq_iff {ascii : UInt8} (hascii : isAscii ascii = true) (code : Int) :
    HostLexer.reportedByte code = ascii ↔ code = ascii.toNat := by
  have hlow : ascii.toNat < 0x80 := UInt8.lt_iff_toNat_lt.mp (lt_of_isAscii hascii)
  unfold HostLexer.reportedByte
  split_ifs with hcode
  · have hsize : code.toNat < UInt8.size := Nat.lt_trans (by omega) (by decide : 0x80 < UInt8.size)
    rw [← UInt8.toNat_inj, Nat.toUInt8_eq, UInt8.toNat_ofNat_of_lt' hsize]
    omega
  · refine iff_of_false ?_ (by omega)
    exact ne_ascii_of_le (UInt8.le_refl _) ascii hascii

/-- A string literal moves a host lexer to its end, counted in codes. -/
theorem exists_endsAt_finish_hostLexer (lexer : HostLexer) : ∃ stop,
    EndsAt (0x22 : Int) 0x5C (lexer.codes.toList.drop lexer.position) stop ∧
      (finish lexer).codes = lexer.codes ∧ (finish lexer).position = lexer.position + stop := by
  obtain ⟨stop, hends, hfinish⟩ := exists_endsAt_finish (rest lexer)
  have hcodes : EndsAt (0x22 : Int) 0x5C (lexer.codes.toList.drop lexer.position) stop :=
    hends.of_map (reportedByte_eq_iff (by decide)) (reportedByte_eq_iff (by decide))
  have hadvance : ∀ moved : HostLexer, moved.codes = lexer.codes ∧ lexer.position ≤ moved.position ∧
      moved.position ≤ max lexer.position lexer.codes.size →
      (advance moved).codes = lexer.codes ∧ lexer.position ≤ (advance moved).position ∧
        (advance moved).position ≤ max lexer.position lexer.codes.size := by
    rintro moved ⟨hsame, hle, hmax⟩
    change moved.advanceCode.codes = _ ∧ _ ≤ moved.advanceCode.position ∧
      moved.advanceCode.position ≤ _
    unfold HostLexer.advanceCode
    split_ifs with hlt
    · rw [hsame] at hlt
      refine ⟨hsame, ?_⟩
      dsimp only
      omega
    · exact ⟨hsame, hle, hmax⟩
  have hmoved := finish_keeps _ hadvance (fun _ ↦ advanceWhile_holds hadvance _)
    ⟨rfl, Nat.le_refl _, Nat.le_max_left _ _⟩
  obtain ⟨hsame, hle, hmax⟩ := hmoved
  have hleft := congrArg List.length ((rest_finish lexer).trans hfinish)
  have hstop := hcodes.le_length
  simp only [rest, HostLexer.reportedRest, hsame, List.length_map, List.length_drop,
    Array.length_toList] at hleft hstop
  exact ⟨stop, hcodes, hsame, by omega⟩

end StringLiteral

/-! ### Every reader -/

open StringLiteral

/-- A string literal is passed up to its first unescaped quote and with it, or to the end of the
text if there is none: every reader passes so many of the characters still to be read; the reader
over a source that fits, with its search in bulk or without one, moves on by so many bytes and
changes nothing else, at whatever offset it stands; and a host lexer moves on by so many codes. The
law sees bytes and codes alone, so zeros are content, and the bytes of a character are passed with
it. -/
theorem finish_first_unescaped_quote :
    (∀ {ρ : Type} [SeekReader ρ] (reader : ρ), ∃ stop,
      EndsAt Ascii.doubleQuote Ascii.backslash (rest reader) stop ∧
        rest (finish reader) = (rest reader).drop stop) ∧
      (∀ reader : ByteReader, reader.source.Fits → ∃ stop,
        EndsAt Ascii.doubleQuote Ascii.backslash (reader.source.bytes.drop reader.offset) stop ∧
          finish reader = { reader with offset := reader.offset + stop } ∧
          finish (Stepwise.mk reader) = ⟨{ reader with offset := reader.offset + stop }⟩) ∧
      ∀ lexer : HostLexer, ∃ stop,
        EndsAt (0x22 : Int) 0x5C (lexer.codes.toList.drop lexer.position) stop ∧
          (finish lexer).codes = lexer.codes ∧ (finish lexer).position = lexer.position + stop := by
  refine ⟨?_, ?_, exists_endsAt_finish_hostLexer⟩
  · intro ρ _ reader
    obtain ⟨stop, hends, hfinish⟩ := exists_endsAt_finish (rest reader)
    exact ⟨stop, hends, (rest_finish reader).trans hfinish⟩
  · intro reader hfits
    obtain ⟨stop, hends, hfinish⟩ := exists_endsAt_finish_byteReader hfits
    have hbehind : IsBehind (finish reader) (finish (Stepwise.mk reader)) :=
      stepwise_simulation.finish_related ⟨rfl, hfits⟩
    refine ⟨stop, hends, hfinish, ?_⟩
    rw [← hfinish]
    exact congrArg Stepwise.mk hbehind.reader_eq

/-- From the second byte of a character a literal goes past an escaped quote and an escaped
character of two bytes to the quote that closes it. -/
theorem finish_first_unescaped_quote_witness :
    let source : Source := ⟨"é\\\"\\é\"a"⟩
    let reader := source.readerAt 1
    source.Fits ∧ EndsAt Ascii.doubleQuote Ascii.backslash (source.bytes.drop 1) 7 ∧
      (finish reader).offset = 8 ∧ finish (Stepwise.mk reader) = ⟨finish reader⟩ := by
  intro source reader
  have hfits : source.Fits := by decide +kernel
  obtain ⟨stop, hends, hfinish, hstepwise⟩ := finish_first_unescaped_quote.2.1 reader hfits
  have hoffset : (finish reader).offset = 1 + 7 := by decide +kernel
  have hstop : stop = 7 := Nat.add_left_cancel (hfinish ▸ hoffset)
  exact ⟨hfits, hstop ▸ hends, hoffset, hfinish.symm ▸ hstepwise⟩

/-- Of a text with one byte more than can be addressed, the last byte is not held. A literal in
front of the quote that is this byte ends there, and the law puts its end behind the quote. -/
theorem finish_unaware_of_lost_quote :
    let source : Source := ⟨String.ofList (List.replicate 4294967295 'a' ++ ['"'])⟩
    let encoded := source.text.toList.flatMap String.utf8EncodeChar
    let reader := source.readerAt 4294967295
    EndsAt Ascii.doubleQuote Ascii.backslash (encoded.drop 4294967295) 1 ∧
      reader.offset = 4294967295 ∧ finish reader = reader := by
  intro source encoded reader
  have hfront : Source.encodedSize (List.replicate 4294967295 'a') = 4294967295 :=
    Source.encodedSize_replicate 4294967295 'a'
  have htext : source.text.toList = List.replicate 4294967295 'a' ++ ['"'] := String.toList_ofList
  have hsize : source.size = 4294967295 :=
    (Source.size_eq_of_encodedSize_eq htext hfront).trans hfront
  have hreader : reader = ⟨source, 4294967295, 4294967295, none, none⟩ :=
    Source.readerAt_of_le (Nat.le_of_eq hsize.symm)
  have hencoded : encoded.drop 4294967295 = [Ascii.doubleQuote] := by
    change List.drop _ (source.text.toList.flatMap _) = _
    rw [htext, List.flatMap_append, List.drop_left' hfront]
    decide
  refine ⟨?_, by rw [hreader], finish_of_size_le (by rw [hreader]; exact Nat.le_of_eq hsize)⟩
  rw [hencoded]
  have hquote : UnescapedAt Ascii.doubleQuote Ascii.backslash [Ascii.doubleQuote] 0 :=
    ⟨rfl, ⟨0, rfl⟩⟩
  exact .closed ⟨hquote, fun _ _ ↦ Nat.zero_le _⟩

end GrammarFragments
