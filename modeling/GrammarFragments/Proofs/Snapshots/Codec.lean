import GrammarFragments.Host.Session

/-!
Snapshots as a codec. The contexts that can be read back are those whose tag holds nothing but tag
bytes (`Context.WellTagged`): reading the snapshot of such a context gives the context
(`decode_encode`), and whatever bytes a scanner is restored from, it is left with such a context
(`restore_wellTagged`).

Writing into a buffer is all or nothing (`writeTo_atomic`): with room for the flag and the tag the
front of the buffer becomes the snapshot and the rest of it stays, and without that room all of it
stays. A host takes its snapshots into a buffer of a fixed size. What it gets is the whole snapshot
if the tag leaves room for the flag, and nothing otherwise (`snapshot_eq`).
-/

set_option autoImplicit false
set_option relaxedAutoImplicit false

namespace GrammarFragments

namespace Context

/-- The tag holds nothing but lower-case letters and underscores. -/
def WellTagged (context : Context) : Prop := ∀ byte ∈ context.tag, isTagByte byte = true

theorem wellTagged_of_tag_eq_nil {context : Context} (htag : context.tag = []) :
    context.WellTagged := by
  intro byte hbyte
  rw [htag] at hbyte
  cases hbyte

theorem firstInvalid_eq_none_iff (offset : Nat) (tag : List UInt8) :
    firstInvalid offset tag = none ↔ ∀ byte ∈ tag, isTagByte byte = true := by
  induction tag generalizing offset with
  | nil => simp [firstInvalid]
  | cons byte tag ih =>
    rw [firstInvalid, List.forall_mem_cons]
    by_cases hbyte : isTagByte byte = true
    · rw [if_pos hbyte, ih]
      exact (and_iff_right hbyte).symm
    · rw [if_neg hbyte]
      constructor
      · intro hnone
        cases hnone
      · intro hall
        exact absurd hall.1 hbyte

theorem decodeFlag_flagByte (inString : Bool) : decodeFlag (flagByte inString) = .ok inString := by
  cases inString <;> rfl

/-- Assumes: a tag of tag bytes. The snapshot of the context is read as the context. -/
theorem decode_encode {context : Context} (hwell : context.WellTagged) :
    decode context.encode = .ok context := by
  have hvalid := (firstInvalid_eq_none_iff 1 context.tag).mpr hwell
  simp only [encode, decode, decodeFlag_flagByte, hvalid]

/-- A snapshot that can be read holds a tag of tag bytes. -/
theorem wellTagged_of_decode_eq_ok {bytes : List UInt8} {context : Context}
    (hdecode : decode bytes = .ok context) : context.WellTagged := by
  cases bytes with
  | nil =>
    cases hdecode
    exact wellTagged_of_tag_eq_nil rfl
  | cons flag tag =>
    rw [decode] at hdecode
    cases hflag : decodeFlag flag with
    | error fault =>
      rw [hflag] at hdecode
      cases hdecode
    | ok inString =>
      rw [hflag] at hdecode
      cases hinvalid : firstInvalid 1 tag with
      | some fault =>
        rw [hinvalid] at hdecode
        cases hdecode
      | none =>
        rw [hinvalid] at hdecode
        cases hdecode
        exact (firstInvalid_eq_none_iff 1 tag).mp hinvalid

/-- Whatever a scanner is restored from, its tag holds nothing but tag bytes. -/
theorem restore_wellTagged (bytes : List UInt8) : (restore bytes).context.WellTagged := by
  rw [restore]
  cases hdecode : decode bytes with
  | ok context => exact wellTagged_of_decode_eq_ok hdecode
  | error fault => exact wellTagged_of_tag_eq_nil rfl

theorem restore_encode {context : Context} (hwell : context.WellTagged) :
    (restore context.encode).context = context := by
  rw [restore, decode_encode hwell]

/-! ### Writing into a buffer -/

theorem length_encode (context : Context) : context.encode.length = context.encodedLength := by
  rw [encode, encodedLength, List.length_cons, Nat.add_comm]

/-- Assumes: a buffer with room for the flag and the tag. The snapshot is laid over the front of the
buffer. -/
theorem writeTo_of_le {context : Context} {buffer : List UInt8}
    (hroom : context.encodedLength ≤ buffer.length) :
    context.writeTo buffer =
      (.ok context.encodedLength, context.encode ++ buffer.drop context.encodedLength) :=
  if_pos hroom

/-- Assumes: a buffer without that room. The buffer is left as it is. -/
theorem writeTo_of_lt {context : Context} {buffer : List UInt8}
    (hshort : buffer.length < context.encodedLength) :
    context.writeTo buffer =
      (.error (.bufferTooSmall context.encodedLength buffer.length), buffer) :=
  if_neg (Nat.not_le.mpr hshort)

theorem take_encode_append (context : Context) (bytes : List UInt8) :
    (context.encode ++ bytes).take context.encodedLength = context.encode := by
  rw [← length_encode, List.take_left]

/-- Assumes: a buffer with room for the flag and the tag. The bytes written are the snapshot. -/
theorem take_writeTo {context : Context} {buffer : List UInt8}
    (hroom : context.encodedLength ≤ buffer.length) :
    (context.writeTo buffer).1 = .ok context.encodedLength ∧
      (context.writeTo buffer).2.take context.encodedLength = context.encode := by
  rw [writeTo_of_le hroom]
  exact ⟨rfl, context.take_encode_append _⟩

/-- Assumes: a buffer with room for the flag and the tag. Behind the bytes written the buffer has
what it had, and no bytes more. -/
theorem frame_writeTo {context : Context} {buffer : List UInt8}
    (hroom : context.encodedLength ≤ buffer.length) :
    (context.writeTo buffer).2.length = buffer.length ∧
      ∀ offset, context.encodedLength ≤ offset →
        (context.writeTo buffer).2[offset]? = buffer[offset]? := by
  rw [writeTo_of_le hroom]
  constructor
  · rw [List.length_append, length_encode, List.length_drop]
    omega
  · intro offset hoffset
    rw [List.getElem?_append_right (by rwa [length_encode]), length_encode, List.getElem?_drop,
      Nat.add_sub_cancel' hoffset]

/-- A context is written whole or not at all, into buffers of any size. It is written exactly if the
buffer has room for the flag and the tag; then the count is the length of the snapshot, the buffer
starts with the snapshot, and it has the same length and the same bytes behind it as before.
Otherwise the error names the room needed and the room there is, and the buffer is the same. -/
theorem writeTo_atomic (context : Context) (buffer : List UInt8) :
    let result := (context.writeTo buffer).1
    let after := (context.writeTo buffer).2
    ((∃ count, result = .ok count) ↔ 1 + context.tag.length ≤ buffer.length) ∧
      (∀ count, result = .ok count →
        count = context.encodedLength ∧ after.length = buffer.length ∧
        after.take context.encodedLength = context.encode ∧
        ∀ offset, context.encodedLength ≤ offset → after[offset]? = buffer[offset]?) ∧
      ∀ fault, result = .error fault →
        fault = .bufferTooSmall context.encodedLength buffer.length ∧ after = buffer := by
  intro result after
  rcases Nat.lt_or_ge buffer.length context.encodedLength with hshort | hroom
  · have hwrite : context.writeTo buffer = _ := writeTo_of_lt hshort
    have hresult : result = .error (.bufferTooSmall context.encodedLength buffer.length) :=
      congrArg Prod.fst hwrite
    have hafter : after = buffer := congrArg Prod.snd hwrite
    rw [hresult]
    refine ⟨⟨?_, fun hroom ↦ absurd hroom (Nat.not_le.mpr hshort)⟩, ?_, ?_⟩
    · rintro ⟨count, hcount⟩
      contradiction
    · intro count hcount
      contradiction
    · intro fault hfault
      exact ⟨(Except.error.inj hfault).symm, hafter⟩
  · obtain ⟨hresult, htake⟩ := take_writeTo hroom
    obtain ⟨hlength, hbehind⟩ := frame_writeTo hroom
    change result = _ at hresult
    rw [hresult]
    refine ⟨⟨fun _ ↦ hroom, fun _ ↦ ⟨_, rfl⟩⟩, ?_, ?_⟩
    · intro count hcount
      exact ⟨(Except.ok.inj hcount).symm, hlength, htake, hbehind⟩
    · intro fault hfault
      contradiction

/-- A tag of two letters fills the first three of four bytes, and is refused by two. -/
theorem writeTo_atomic_witness :
    let context : Context := ⟨true, [0x61, 0x62]⟩
    (3 = context.encodedLength ∧ (context.writeTo [7, 8, 9, 10]).2.length = 4 ∧
      (context.writeTo [7, 8, 9, 10]).2.take 3 = [1, 0x61, 0x62] ∧
      ∀ offset, 3 ≤ offset → (context.writeTo [7, 8, 9, 10]).2[offset]? = [7, 8, 9, 10][offset]?) ∧
    SnapshotError.bufferTooSmall 3 2 = .bufferTooSmall context.encodedLength 2 ∧
      (context.writeTo [7, 8]).2 = [7, 8] :=
  ⟨(writeTo_atomic ⟨true, [0x61, 0x62]⟩ [7, 8, 9, 10]).2.1 3 rfl,
    (writeTo_atomic ⟨true, [0x61, 0x62]⟩ [7, 8]).2.2 _ rfl⟩

end Context

namespace HostSession

theorem length_blankBuffer : blankBuffer.length = snapshotCapacity := List.length_replicate

/-- A host is given the snapshot of its scanner if that fits into the buffer, and nothing
otherwise. -/
theorem snapshot_eq (context : Context) :
    (snapshot ⟨some context⟩).1 = if context.tag.length ≤ 1023 then context.encode else [] := by
  by_cases hfits : context.tag.length ≤ 1023
  · have hroom : context.encodedLength ≤ blankBuffer.length := by
      rw [length_blankBuffer, Context.encodedLength, snapshotCapacity]
      omega
    obtain ⟨hwritten, htake⟩ := Context.take_writeTo hroom
    rw [if_pos hfits, snapshot]
    simp only
    split
    · rename_i written buffer hwrite
      rw [hwrite] at hwritten htake
      cases hwritten
      exact htake
    · rename_i fault buffer hwrite
      rw [hwrite] at hwritten
      cases hwritten
  · have hshort : blankBuffer.length < context.encodedLength := by
      rw [length_blankBuffer, Context.encodedLength, snapshotCapacity]
      omega
    rw [if_neg hfits, snapshot]
    simp only [Context.writeTo_of_lt hshort]

end HostSession

end GrammarFragments
