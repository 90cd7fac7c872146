import Mathlib.Tactic.SplitIfs
import GrammarFragments.Proofs.Nesting.Endings
import GrammarFragments.Proofs.Snapshots.Interruption

/-!
Which texts are quoted texts, and where they end. The opening is decided by the longest run of tag
bytes and the character after it. The end is the first occurrence of the closer (`FirstOccurrence`),
although the search for it never goes back: a candidate that fails has passed a bar and a part of
the tag, and since a tag holds no bar, no closer starts among what was passed.

That argument is made for bodies that do not hold the closer (`findCloser_append`). Every occurrence
of the closer has such a body, its own or a shorter one (`exists_occurrence_free`), so it covers all
texts. Main statement: `quotedText_first_closer`.
-/

set_option autoImplicit false
set_option relaxedAutoImplicit false

namespace GrammarFragments

open Reader

/-! ### Occurrences -/

/-- The first occurrence of a pattern in a text, with what stands in front of it and behind it: no
other one starts further to the left. -/
structure FirstOccurrence (pattern text front back : List UInt8) : Prop where
  text_eq : text = front ++ pattern ++ back
  leftmost : ∀ otherFront otherBack, text = otherFront ++ pattern ++ otherBack →
    front.length ≤ otherFront.length

/-- Assumes: a pattern that is not empty, with an occurrence in a text. There is one, no further to
the right, with none in front of it. -/
theorem exists_occurrence_free {pattern : List UInt8} (hpattern : pattern ≠ [])
    (front back : List UInt8) :
    ∃ first left, front ++ pattern ++ back = first ++ pattern ++ left ∧
      first.length ≤ front.length ∧ ¬ pattern <:+: first := by
  induction hlength : front.length using Nat.strongRecOn generalizing front back with
  | ind length ih =>
    subst hlength
    by_cases hheld : pattern <:+: front
    · obtain ⟨earlier, between, rfl⟩ := hheld
      have hpos := List.length_pos_of_ne_nil hpattern
      have hless : earlier.length < (earlier ++ pattern ++ between).length := by
        rw [List.length_append, List.length_append]
        omega
      obtain ⟨first, left, htext, hle, hfree⟩ :=
        ih earlier.length hless earlier (between ++ pattern ++ back) rfl
      refine ⟨first, left, ?_, Nat.le_trans hle (Nat.le_of_lt hless), hfree⟩
      rw [← htext]
      simp only [List.append_assoc]
    · exact ⟨front, back, rfl, Nat.le_refl _, hheld⟩

namespace QuotedText

/-- The closer of a quoted text: a bar, the tag and a brace. -/
def closer (tag : List UInt8) : List UInt8 := Ascii.bar :: tag ++ [Ascii.braceClose]

/-- A complete quoted text behind its opening brace: a tag and a bar, a body, and the closer with
the same tag. -/
def Complete (chars : List UInt8) : Prop :=
  ∃ tag body, (∀ byte ∈ tag, isTagByte byte = true) ∧
    chars = tag ++ Ascii.bar :: body ++ closer tag

/-! ### The opening -/

section Opening

variable {ρ : Type} [Reader ρ]

/-- An opening that is found is the longest run of tag bytes and a bar. -/
theorem readOpening_of_matched {reader : ρ} {context : Context}
    (hopened : (readOpening reader context).matched = true) :
    rest reader = (rest reader).takeWhile isTagByte ++
        Ascii.bar :: rest (readOpening reader context).reader ∧
      (readOpening reader context).context =
        { context with tag := (rest reader).takeWhile isTagByte } := by
  simp only [readOpening, takeWhile_eq] at hopened ⊢
  split_ifs at hopened ⊢ with hbar
  refine ⟨?_, rfl⟩
  rw [cons_rest_advance hbar (by decide), rest_advanceWhile, List.takeWhile_append_dropWhile]

/-- An attempt at an opening that fails has passed the longest run of tag bytes and nothing else. -/
theorem readOpening_of_not_matched {reader : ρ} {context : Context}
    (hplain : (readOpening reader context).matched = false) :
    rest reader = (rest reader).takeWhile isTagByte ++ rest (readOpening reader context).reader ∧
      (readOpening reader context).context = context.clearTag := by
  simp only [readOpening, takeWhile_eq] at hplain ⊢
  split_ifs at hplain ⊢ with hbar
  refine ⟨?_, rfl⟩
  rw [rest_advanceWhile, List.takeWhile_append_dropWhile]

/-- A run of tag bytes in front of a bar is the longest one. -/
theorem takeWhile_of_bar {tag : List UInt8} (htag : ∀ byte ∈ tag, isTagByte byte = true)
    (left : List UInt8) : (tag ++ Ascii.bar :: left).takeWhile isTagByte = tag := by
  rw [List.takeWhile_append_of_pos htag, List.takeWhile_cons_of_neg (by decide), List.append_nil]

/-- Assumes: tag bytes in front of a bar. There an opening is found. -/
theorem readOpening_matched {reader : ρ} {tag left : List UInt8} (context : Context)
    (htag : ∀ byte ∈ tag, isTagByte byte = true) (hrest : rest reader = tag ++ Ascii.bar :: left) :
    (readOpening reader context).matched = true := by
  have hbar : current (advanceWhile isTagByte reader) = Ascii.bar := by
    rw [current_eq_headD, rest_advanceWhile, hrest, List.dropWhile_append_of_pos htag,
      List.dropWhile_cons_of_neg (by decide), List.headD_cons]
  simp only [readOpening, takeWhile_eq, if_pos hbar]

end Opening

/-! ### The closer -/

section Closing

variable {ρ : Type} [SeekReader ρ] {tag : List UInt8} {reader : ρ}

/-- Assumes: a tag, whose bytes are not zero. A closer that is matched is what has been passed. -/
theorem rest_eq_of_matchCloser (htag : ∀ byte ∈ tag, isTagByte byte = true)
    (hmatched : (matchCloser tag reader).1 = true) :
    rest reader = tag ++ Ascii.braceClose :: rest (matchCloser tag reader).2 := by
  induction tag generalizing reader with
  | nil =>
    rw [matchCloser] at hmatched ⊢
    split_ifs at hmatched ⊢ with hbrace
    exact (cons_rest_advance hbrace (by decide)).symm
  | cons expected tag ih =>
    rw [List.forall_mem_cons] at htag
    rw [matchCloser] at hmatched ⊢
    split_ifs at hmatched ⊢ with hexpected
    rw [List.cons_append, ← ih htag.2 hmatched]
    exact (cons_rest_advance hexpected (ne_of_accept htag.1 rfl)).symm

/-- What a search that succeeds has passed ends with the closer. -/
theorem exists_body_of_findCloser (htag : ∀ byte ∈ tag, isTagByte byte = true)
    (hclosed : (findCloser tag reader).1 = true) :
    ∃ body, rest reader = body ++ closer tag ++ rest (findCloser tag reader).2 := by
  fun_induction findCloser tag reader with
  | case1 reader hend => cases hclosed
  | case2 reader hend hbar candidate hmatched =>
    refine ⟨[], ?_⟩
    rw [← cons_rest_advance hbar (by decide), rest_eq_of_matchCloser htag hmatched]
    simp only [closer, List.nil_append, List.cons_append, List.append_assoc]
    rfl
  | case3 reader hend hbar candidate hmatched ih =>
    obtain ⟨passed, hpassed⟩ :=
      (rest_matchCloser_suffix tag (advance reader)).trans (rest_advance_suffix reader)
    obtain ⟨body, hbody⟩ := ih hclosed
    refine ⟨passed ++ body, ?_⟩
    rw [← hpassed, hbody, List.append_assoc, List.append_assoc, List.append_assoc]
  | case4 reader hend hbar ih =>
    obtain ⟨body, hbody⟩ := ih hclosed
    refine ⟨current reader :: body, ?_⟩
    rw [rest_eq_cons (by simpa using hend), ← rest_advance, hbody]
    rfl

/-- Assumes: a tag, and an occurrence of its closer. The search ends behind an occurrence that is no
further to the right. -/
theorem findCloser_of_occurrence (htag : ∀ byte ∈ tag, isTagByte byte = true)
    {front back : List UInt8} (hrest : rest reader = front ++ closer tag ++ back) :
    (findCloser tag reader).1 = true ∧ ∃ first, first.length ≤ front.length ∧
      rest reader = first ++ closer tag ++ rest (findCloser tag reader).2 := by
  have hcloser : closer tag ≠ [] := List.cons_ne_nil _ _
  obtain ⟨first, left, htext, hle, hfree⟩ := exists_occurrence_free hcloser front back
  obtain ⟨hmatched, hleft⟩ := rest_simulation.findCloser_related htag (rfl : rest reader = _)
  have hfound : findCloser tag (rest reader) = (true, left) := by
    rw [hrest, htext, ← findCloser_append htag hfree left]
    simp only [closer, List.append_assoc, List.cons_append, List.nil_append]
  rw [hfound] at hmatched hleft
  refine ⟨hmatched, first, hle, ?_⟩
  rw [hleft, hrest, htext]

/-- The search finds a closer exactly if there is one. -/
theorem findCloser_eq_true_iff (htag : ∀ byte ∈ tag, isTagByte byte = true) :
    (findCloser tag reader).1 = true ↔ closer tag <:+: rest reader := by
  constructor
  · intro hclosed
    obtain ⟨body, hbody⟩ := exists_body_of_findCloser htag hclosed
    exact ⟨body, _, hbody.symm⟩
  · rintro ⟨front, back, hrest⟩
    exact (findCloser_of_occurrence htag hrest.symm).1

/-- The closer that the search finds is the first one. -/
theorem firstOccurrence_findCloser (htag : ∀ byte ∈ tag, isTagByte byte = true)
    (hclosed : (findCloser tag reader).1 = true) :
    ∃ body, FirstOccurrence (closer tag) (rest reader) body (rest (findCloser tag reader).2) := by
  obtain ⟨body, hbody⟩ := exists_body_of_findCloser htag hclosed
  refine ⟨body, hbody, ?_⟩
  intro front back hrest
  obtain ⟨-, first, hle, hfirst⟩ := findCloser_of_occurrence htag hrest
  have hlength := congrArg List.length (hbody.symm.trans hfirst)
  simp only [List.length_append] at hlength
  omega

/-! ### Whole quoted texts -/

/-- Assumes: a tag and a bar in front of `left`. The complete quoted texts at the start of such
characters have this tag, and their closers are those of `left`. -/
theorem complete_prefix_iff (htag : ∀ byte ∈ tag, isTagByte byte = true)
    {left chars : List UInt8} :
    chars <+: tag ++ Ascii.bar :: left ∧ Complete chars ↔
      ∃ body more, left = body ++ closer tag ++ more ∧
        chars = tag ++ Ascii.bar :: body ++ closer tag := by
  constructor
  · rintro ⟨⟨more, hmore⟩, other, body, hother, rfl⟩
    have hsplit : other ++ Ascii.bar :: (body ++ closer other ++ more) =
        tag ++ Ascii.bar :: left := by
      rw [← hmore]
      simp only [List.append_assoc, List.cons_append]
    have hsame : other = tag := by
      rw [← takeWhile_of_bar hother (body ++ closer other ++ more), hsplit,
        takeWhile_of_bar htag]
    subst hsame
    refine ⟨body, more, ?_, rfl⟩
    exact (List.tail_eq_of_cons_eq (List.append_cancel_left hsplit)).symm
  · rintro ⟨body, more, rfl, rfl⟩
    refine ⟨⟨more, ?_⟩, tag, body, htag, rfl⟩
    simp only [List.append_assoc, List.cons_append]

end Closing

variable {ρ : Type} [SeekReader ρ]

/-- Characters that start with a complete quoted text start with an opening. -/
theorem readOpening_matched_of_complete {reader : ρ} {chars : List UInt8} (context : Context)
    (hstarts : chars <+: rest reader) (hcomplete : Complete chars) :
    (readOpening reader context).matched = true := by
  obtain ⟨more, hmore⟩ := hstarts
  obtain ⟨tag, body, htag, rfl⟩ := hcomplete
  have hrest : rest reader = tag ++ Ascii.bar :: (body ++ closer tag ++ more) := by
    rw [← hmore]
    simp only [List.append_assoc, List.cons_append]
  exact readOpening_matched context htag hrest

/-- Assumes: an opening that is found. The whole is found exactly if the characters start with a
complete quoted text, and then the shortest one is passed. -/
theorem read_of_opening {reader : ρ} {context : Context}
    (hopened : (readOpening reader context).matched = true) :
    ((read reader context).matched = true ↔ ∃ chars, chars <+: rest reader ∧ Complete chars) ∧
      ((read reader context).matched = true →
        ∃ passed, rest reader = passed ++ rest (read reader context).reader ∧ Complete passed ∧
          ∀ chars, chars <+: rest reader → Complete chars → passed.length ≤ chars.length) := by
  have hwell := readOpening_wellTagged hopened
  obtain ⟨hrest, hcontext⟩ := readOpening_of_matched hopened
  rw [read_of_opened hopened, readClosing]
  rw [Context.WellTagged, hcontext] at hwell
  simp only [hcontext]
  generalize (rest reader).takeWhile isTagByte = tag at hrest hwell ⊢
  generalize (readOpening reader context).reader = stopped at hrest ⊢
  rw [hrest]
  constructor
  · rw [findCloser_eq_true_iff hwell]
    constructor
    · rintro ⟨body, more, hmore⟩
      exact ⟨_, (complete_prefix_iff hwell).mpr ⟨body, more, hmore.symm, rfl⟩⟩
    · rintro ⟨chars, hchars⟩
      obtain ⟨body, more, hmore, -⟩ := (complete_prefix_iff hwell).mp hchars
      exact ⟨body, more, hmore.symm⟩
  · intro hclosed
    obtain ⟨body, hfirst⟩ := firstOccurrence_findCloser hwell hclosed
    refine ⟨tag ++ Ascii.bar :: body ++ closer tag, ?_, ⟨tag, body, hwell, rfl⟩, ?_⟩
    · rw [List.append_assoc, List.append_assoc, List.cons_append, ← List.append_assoc,
        ← hfirst.text_eq]
    · intro chars hstarts hcomplete
      obtain ⟨other, more, hmore, rfl⟩ := (complete_prefix_iff hwell).mp ⟨hstarts, hcomplete⟩
      have hle := hfirst.leftmost other more hmore
      simp only [List.length_append, List.length_cons]
      omega

end QuotedText

/-- For every reader and every context. An opening is found exactly if the longest run of tag bytes
has a bar behind it; then this run is remembered as the tag and the reader stops behind the bar, and
otherwise the run alone is passed and no tag is left. With a remembered tag of tag bytes, a closing
is found exactly if the closer occurs in the text; then the reader stops behind its first
occurrence, and otherwise at the end of the text, and no tag is left. A whole quoted text is found
exactly if the text starts with a complete one, and the shortest such start is passed. -/
theorem quotedText_first_closer {ρ : Type} [SeekReader ρ] (reader : ρ) (context : Context) :
    let tag := (rest reader).takeWhile isTagByte
    let opened := QuotedText.readOpening reader context
    let closed := QuotedText.readClosing reader context
    let whole := QuotedText.read reader context
    ((opened.matched = true ↔ ∃ left, rest reader = tag ++ Ascii.bar :: left) ∧
        (opened.matched = true → rest reader = tag ++ Ascii.bar :: rest opened.reader ∧
          opened.context = { context with tag := tag }) ∧
        (opened.matched = false → rest reader = tag ++ rest opened.reader ∧
          opened.context = context.clearTag)) ∧
      (context.WellTagged →
        (closed.matched = true ↔ QuotedText.closer context.tag <:+: rest reader) ∧
          (closed.matched = true → ∃ body,
            FirstOccurrence (QuotedText.closer context.tag) (rest reader) body
              (rest closed.reader)) ∧
          (closed.matched = false → rest closed.reader = []) ∧
          closed.context = context.clearTag) ∧
      (whole.matched = true ↔ ∃ chars, chars <+: rest reader ∧ QuotedText.Complete chars) ∧
      (whole.matched = true → ∃ passed, rest reader = passed ++ rest whole.reader ∧
        QuotedText.Complete passed ∧
        ∀ chars, chars <+: rest reader → QuotedText.Complete chars →
          passed.length ≤ chars.length) := by
  intro tag opened closed whole
  refine ⟨⟨⟨?_, ?_⟩, QuotedText.readOpening_of_matched, QuotedText.readOpening_of_not_matched⟩,
    ?_, ?_⟩
  · intro hopened
    exact ⟨_, (QuotedText.readOpening_of_matched hopened).1⟩
  · rintro ⟨left, hrest⟩
    exact QuotedText.readOpening_matched context (List.all_eq_true.mp List.all_takeWhile) hrest
  · intro hwell
    exact ⟨QuotedText.findCloser_eq_true_iff hwell, QuotedText.firstOccurrence_findCloser hwell,
      rest_findCloser_eq_nil, rfl⟩
  · cases hopened : opened.matched with
    | true => exact QuotedText.read_of_opening hopened
    | false =>
      have hwhole : whole = opened := if_neg (by rw [hopened]; exact Bool.false_ne_true)
      rw [hwhole, hopened]
      refine ⟨⟨nofun, ?_⟩, nofun⟩
      rintro ⟨chars, hstarts, hcomplete⟩
      exact hopened.symm.trans
        (QuotedText.readOpening_matched_of_complete context hstarts hcomplete)

/-- A quoted text with a character outside of ASCII and a bar in its body, in which a closer starts
inside of a candidate that fails and another closer follows. -/
theorem quotedText_first_closer_witness :
    let reader := (Source.mk "fo|é|fo|foo|fo\x7d|fo\x7d").reader
    let context : Context := ⟨false, [0x66, 0x6F]⟩
    context.WellTagged ∧ QuotedText.closer context.tag <:+: rest reader ∧
      (∃ body, FirstOccurrence (QuotedText.closer context.tag) (rest reader) body
        (rest (QuotedText.readClosing reader context).reader)) ∧
      ∃ passed, rest reader = passed ++ [0x7C, 0x66, 0x6F, 0x7D] ∧
        QuotedText.Complete passed ∧
        ∀ chars, chars <+: rest reader → QuotedText.Complete chars →
          passed.length ≤ chars.length := by
  intro reader context
  have hwell : context.WellTagged := by
    rw [Context.WellTagged]
    decide +kernel
  have hclosed : (QuotedText.readClosing reader context).matched = true := by decide +kernel
  have hwhole : (QuotedText.read reader context).matched = true := by decide +kernel
  have hleft : rest (QuotedText.read reader context).reader = [0x7C, 0x66, 0x6F, 0x7D] := by
    decide +kernel
  obtain ⟨-, hclosing, -, hshortest⟩ := quotedText_first_closer reader context
  obtain ⟨hiff, hfirst, -, -⟩ := hclosing hwell
  refine ⟨hwell, hiff.mp hclosed, hfirst hclosed, ?_⟩
  rw [← hleft]
  exact hshortest hwhole

end GrammarFragments
