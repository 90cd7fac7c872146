import GrammarFragments.Source.Characters

/-!
Places between the characters of a text. The characters in front of a place give its offset, the
number of bytes of their encodings (`encodedSize`). At the place of a character that is held up to
its end stands its leading byte, and the next offset is the place behind it (`byteAt_encodedSize`,
`next_of_held`). So a walk through a part of the text that is held meets the leading bytes of its
characters (`charsFrom_of_held`).

A text that does not fit is held up to the largest offset. If that lies inside of a character, the
leading byte of that character is held and gives a width that leads past all offsets, so here the
walk overflows, and nowhere else (`CutInside.overflow?_eq`, `overflow?_of_held`).
-/

set_option autoImplicit false
set_option relaxedAutoImplicit false

namespace GrammarFragments

namespace Source

/-! ### Bytes and characters -/

/-- The number of bytes that encode some characters. -/
def encodedSize (chars : List Char) : Nat := (chars.flatMap String.utf8EncodeChar).length

theorem encodedSize_append (first second : List Char) :
    encodedSize (first ++ second) = encodedSize first + encodedSize second := by
  rw [encodedSize, List.flatMap_append, List.length_append]
  rfl

theorem encodedSize_cons (char : Char) (chars : List Char) :
    encodedSize (char :: chars) = (String.utf8EncodeChar char).length + encodedSize chars := by
  rw [encodedSize, List.flatMap_cons, List.length_append]
  rfl

theorem encodedSize_replicate (count : Nat) (char : Char) :
    encodedSize (List.replicate count char) = count * char.utf8Size := by
  induction count with
  | zero => rw [Nat.zero_mul]; rfl
  | succ count ih =>
    rw [List.replicate_succ, encodedSize_cons, ih, String.length_utf8EncodeChar, Nat.succ_mul,
      Nat.add_comm]

theorem encodedSize_toList (text : String) : encodedSize text.toList = text.utf8ByteSize :=
  length_flatMap_encode text

theorem encodedSize_eq_utf8ByteSize (chars : List Char) :
    encodedSize chars = (String.ofList chars).utf8ByteSize := by
  rw [← encodedSize_toList, String.toList_ofList]

/-- The first byte of the encoding of a character. -/
def leadByte (char : Char) : UInt8 := (String.utf8EncodeChar char).headD 0

/-- The characters of a text, each by its first byte. -/
def reported (chars : List Char) : List UInt8 := chars.map leadByte

theorem reported_append (first second : List Char) :
    reported (first ++ second) = reported first ++ reported second :=
  List.map_append

theorem reported_cons (char : Char) (chars : List Char) :
    reported (char :: chars) = leadByte char :: reported chars :=
  List.map_cons

/-- The encoding of a character starts with its leading byte, which tells the length. -/
theorem leadWidth_leadByte (char : Char) :
    leadWidth (leadByte char) = (String.utf8EncodeChar char).length := by
  obtain ⟨lead, trailing, hencode, hwidth, -⟩ := exists_lead_trailing char
  rw [leadByte, hencode, List.headD_cons, hwidth, List.length_cons]

variable {source : Source} {front middle back : List Char} {char : Char}

theorem encodedSize_append_singleton (front : List Char) (char : Char) :
    encodedSize (front ++ [char]) = encodedSize front + leadWidth (leadByte char) := by
  rw [encodedSize_append, encodedSize_cons, leadWidth_leadByte]
  rfl

/-! ### What is held -/

theorem Fits.size_eq_encodedSize (hfits : source.Fits) :
    source.size = encodedSize source.text.toList := by
  rw [encodedSize_toList, hfits.size_eq]

/-- A text that fits is held up to the end of each of its characters. -/
theorem Fits.encodedSize_le (hfits : source.Fits) (htext : source.text.toList = front ++ back) :
    encodedSize front ≤ source.size := by
  rw [hfits.size_eq_encodedSize, htext, encodedSize_append]
  exact Nat.le_add_right _ _

/-- What a text begins with is held, if its bytes can be addressed. -/
theorem encodedSize_le_size (htext : source.text.toList = front ++ back)
    (hfits : encodedSize front < UInt32.size) : encodedSize front ≤ source.size := by
  refine Nat.le_min.mpr ⟨?_, Nat.le_pred_of_lt hfits⟩
  rw [← encodedSize_toList, htext, encodedSize_append]
  exact Nat.le_add_right _ _

/-- Of a text that has more bytes than can be addressed, as many are held as can be addressed. -/
theorem size_eq_sizeLimit (htext : source.text.toList = front ++ back)
    (hlong : sizeLimit ≤ encodedSize front + encodedSize back) : source.size = sizeLimit := by
  refine Nat.min_eq_right ?_
  rw [← encodedSize_toList, htext, encodedSize_append]
  exact hlong

/-- A text whose first characters take up all that can be addressed is held up to their end. -/
theorem size_eq_of_encodedSize_eq (htext : source.text.toList = front ++ back)
    (hfront : encodedSize front = sizeLimit) : source.size = encodedSize front := by
  rw [hfront]
  refine size_eq_sizeLimit htext ?_
  rw [hfront]
  exact Nat.le_add_right _ _

/-! ### The character at a place -/

theorem byteAt_encodedSize (htext : source.text.toList = front ++ char :: back)
    (hlt : encodedSize front < source.size) :
    source.byteAt (encodedSize front) = leadByte char := by
  obtain ⟨lead, trailing, hencode, -⟩ := exists_lead_trailing char
  have hget := getElem?_flatMap_of_lt hlt
  rw [htext, List.flatMap_append, List.flatMap_cons, hencode, encodedSize,
    List.getElem?_append_right (Nat.le_refl _), Nat.sub_self, List.cons_append,
    List.getElem?_cons_zero, Option.some.injEq] at hget
  rw [leadByte, hencode, List.headD_cons]
  exact hget.symm

/-- A character that is held up to its end starts in front of the end. -/
theorem encodedSize_lt_of_held (hheld : encodedSize (front ++ [char]) ≤ source.size) :
    encodedSize front < source.size := by
  have hwidth := leadWidth_pos (leadByte char)
  rw [encodedSize_append_singleton] at hheld
  omega

theorem next_of_held (htext : source.text.toList = front ++ char :: back)
    (hheld : encodedSize (front ++ [char]) ≤ source.size) :
    source.next (encodedSize front) = encodedSize (front ++ [char]) := by
  have hlt := encodedSize_lt_of_held hheld
  rw [next, if_pos hlt, byteAt_encodedSize htext hlt, ← encodedSize_append_singleton]
  exact Nat.min_eq_left hheld

/-- Assumes: a text that fits, with a character after `front`. At the offset of the character stands
its leading byte, and the next offset is past all of its bytes. -/
theorem Fits.exists_lead_of_toList_eq (hfits : source.Fits)
    (htext : source.text.toList = front ++ char :: back) :
    ∃ lead trailing, String.utf8EncodeChar char = lead :: trailing ∧
      leadWidth lead = trailing.length + 1 ∧ encodedSize front < source.size ∧
      source.byteAt (encodedSize front) = lead ∧
      source.next (encodedSize front) = encodedSize (front ++ [char]) := by
  obtain ⟨lead, trailing, hencode, hwidth, -⟩ := exists_lead_trailing char
  have hsplit : source.text.toList = (front ++ [char]) ++ back := by
    rw [htext, List.append_assoc, List.singleton_append]
  have hheld := hfits.encodedSize_le hsplit
  have hlt := encodedSize_lt_of_held hheld
  have hbyte := byteAt_encodedSize htext hlt
  rw [leadByte, hencode, List.headD_cons] at hbyte
  exact ⟨lead, trailing, hencode, hwidth, hlt, hbyte, next_of_held htext hheld⟩

/-- A character that is held up to its end can be passed. -/
theorem overflow?_of_held (htext : source.text.toList = front ++ char :: back)
    (hheld : encodedSize (front ++ [char]) ≤ source.size) :
    source.overflow? (encodedSize front) = none := by
  have hlt := source.size_lt
  rw [overflow?, byteAt_encodedSize htext (encodedSize_lt_of_held hheld),
    ← encodedSize_append_singleton, if_neg (by omega)]

/-! ### Walks -/

/-- Assumes: a text that goes on with `middle` after `front`, held up to the end of `middle`. Behind
`front` the characters of `middle` are to be read first. -/
theorem charsFrom_of_held (htext : source.text.toList = front ++ (middle ++ back))
    (hheld : encodedSize (front ++ middle) ≤ source.size) :
    source.charsFrom (encodedSize front) =
      reported middle ++ source.charsFrom (encodedSize (front ++ middle)) := by
  induction middle generalizing front with
  | nil => rw [List.append_nil, reported, List.map_nil, List.nil_append]
  | cons char middle ih =>
    have hsplit : front ++ char :: middle = (front ++ [char]) ++ middle := by
      rw [List.append_assoc, List.singleton_append]
    rw [hsplit] at hheld ⊢
    have hthere : encodedSize (front ++ [char]) ≤ source.size := by
      rw [encodedSize_append] at hheld
      exact Nat.le_trans (Nat.le_add_right _ _) hheld
    have hbehind : source.text.toList = (front ++ [char]) ++ (middle ++ back) := by
      rw [htext, List.append_assoc, List.singleton_append, List.cons_append]
    have hlt := encodedSize_lt_of_held hthere
    rw [charsFrom_of_lt hlt, byteAt_encodedSize htext hlt, next_of_held htext hthere,
      ih hbehind hheld, reported_cons, List.cons_append]

/-- Assumes: a text that goes on with `middle` after `front`, and is held up to the end of `middle`
and no further. Behind `front` the characters of `middle` are still to be read. -/
theorem charsFrom_of_size_eq (htext : source.text.toList = front ++ (middle ++ back))
    (hsize : source.size = encodedSize (front ++ middle)) :
    source.charsFrom (encodedSize front) = reported middle := by
  rw [charsFrom_of_held htext (Nat.le_of_eq hsize.symm), charsFrom_of_le (Nat.le_of_eq hsize),
    List.append_nil]

/-- Assumes: a text that fits and goes on with `back` after `front`. Behind `front` the characters
of `back` are still to be read. -/
theorem Fits.charsFrom_encodedSize (hfits : source.Fits)
    (htext : source.text.toList = front ++ back) :
    source.charsFrom (encodedSize front) = reported back := by
  have hwhole : source.text.toList = front ++ (back ++ []) := by rw [htext, List.append_nil]
  refine charsFrom_of_size_eq hwhole ?_
  rw [hfits.size_eq_encodedSize, htext]

/-! ### Texts that are cut inside of a character -/

/-- The bytes that can be addressed end inside of the character behind `front`. -/
structure CutInside (source : Source) (front : List Char) (char : Char) : Prop where
  toList_eq : ∃ back, source.text.toList = front ++ char :: back
  lt_sizeLimit : encodedSize front < sizeLimit
  sizeLimit_lt : sizeLimit < encodedSize (front ++ [char])

namespace CutInside

/-- A text that ends with a character which leads past the bytes that can be addressed. -/
theorem of_encodedSize (hfront : encodedSize front < sizeLimit)
    (hlong : sizeLimit < encodedSize front + char.utf8Size) :
    CutInside ⟨String.ofList (front ++ [char])⟩ front char where
  toList_eq := ⟨[], String.toList_ofList⟩
  lt_sizeLimit := hfront
  sizeLimit_lt := by
    rw [encodedSize_append_singleton, leadWidth_leadByte, String.length_utf8EncodeChar]
    exact hlong

theorem size_eq (hcut : CutInside source front char) : source.size = sizeLimit := by
  obtain ⟨back, htext⟩ := hcut.toList_eq
  rw [← List.singleton_append, ← List.append_assoc] at htext
  refine size_eq_sizeLimit htext ?_
  have hlong := hcut.sizeLimit_lt
  omega

theorem lt_size (hcut : CutInside source front char) : encodedSize front < source.size := by
  rw [hcut.size_eq]
  exact hcut.lt_sizeLimit

theorem byteAt_eq (hcut : CutInside source front char) :
    source.byteAt (encodedSize front) = leadByte char := by
  obtain ⟨back, htext⟩ := hcut.toList_eq
  exact byteAt_encodedSize htext hcut.lt_size

/-- The character that was cut cannot be passed. -/
theorem overflow?_eq (hcut : CutInside source front char) :
    source.overflow? (encodedSize front) = some (encodedSize front) := by
  have hlong : UInt32.size - 1 < _ := hcut.sizeLimit_lt
  rw [encodedSize_append_singleton] at hlong
  rw [overflow?, hcut.byteAt_eq, if_pos ⟨hcut.lt_size, by omega⟩]

/-- Behind the character that was cut there is nothing. -/
theorem next_eq (hcut : CutInside source front char) :
    source.next (encodedSize front) = source.size := by
  have hlong := hcut.sizeLimit_lt
  rw [encodedSize_append_singleton] at hlong
  rw [next, if_pos hcut.lt_size, hcut.byteAt_eq, hcut.size_eq]
  omega

end CutInside

end Source

end GrammarFragments
