import GrammarFragments.Context.Exchange
import GrammarFragments.Proofs.Snapshots.Codec

/-!
The snapshots of a context are a canonical form. Besides the empty one, the snapshots that can be
read are the very bytes that some context with a well-formed tag is written as, so no context has
two of them (`decode_eq_ok_iff`). All other bytes are refused for one reason each
(`decode_eq_error_iff`): a flag that is neither zero nor one, whatever comes after it, and otherwise
the first byte that no tag may hold, at its offset in the snapshot (`FirstFault`).

The exchanged form knows no such restriction: in every format that reads back what it has written,
each context is read back (`ofExchange?_exchange`). Main statement: `snapshot_exact`.
-/

set_option autoImplicit false
set_option relaxedAutoImplicit false

namespace GrammarFragments

namespace Context

/-! ### The reasons for which a snapshot is refused -/

/-- Behind the flag of a snapshot, `byte` at `offset` is the first that no tag may hold. -/
structure FirstFault (bytes : List UInt8) (byte : UInt8) (offset : Nat) : Prop where
  behind_flag : 0 < offset
  getElem?_eq : bytes[offset]? = some byte
  not_isTagByte : isTagByte byte = false
  isTagByte_before : ∀ earlier, 0 < earlier → earlier < offset → ∀ other,
    bytes[earlier]? = some other → isTagByte other = true

/-- The fault for which a snapshot is refused. -/
inductive Refused : List UInt8 → SnapshotError → Prop
  | flag {byte : UInt8} (tag : List UInt8) (hzero : byte ≠ 0) (hone : byte ≠ 1) :
    Refused (byte :: tag) (.invalidFlag byte)
  | tagByte {flag : UInt8} {tag : List UInt8} {byte : UInt8} {offset : Nat}
    (hflag : flag = 0 ∨ flag = 1) (hfault : FirstFault (flag :: tag) byte offset) :
    Refused (flag :: tag) (.invalidTagByte byte offset)

theorem firstInvalid_eq_some_iff {start : Nat} {tag : List UInt8} {byte : UInt8} {offset : Nat} :
    firstInvalid start tag = some (byte, offset) ↔
      ∃ index, offset = start + index ∧ tag[index]? = some byte ∧ isTagByte byte = false ∧
        ∀ earlier < index, ∀ other, tag[earlier]? = some other → isTagByte other = true := by
  induction tag generalizing start with
  | nil => simp [firstInvalid]
  | cons first tag ih =>
    by_cases hfirst : isTagByte first = true
    · rw [firstInvalid, if_pos hfirst, ih]
      constructor
      · rintro ⟨index, rfl, hbyte, hinvalid, hbefore⟩
        refine ⟨index + 1, by omega, hbyte, hinvalid, ?_⟩
        intro earlier hearlier other hother
        cases earlier with
        | zero =>
          cases hother
          exact hfirst
        | succ earlier => exact hbefore earlier (by omega) other hother
      · rintro ⟨index, rfl, hbyte, hinvalid, hbefore⟩
        cases index with
        | zero =>
          cases hbyte
          exact absurd hfirst (by rw [hinvalid]; exact Bool.false_ne_true)
        | succ index =>
          refine ⟨index, by omega, hbyte, hinvalid, ?_⟩
          intro earlier hearlier other hother
          exact hbefore (earlier + 1) (by omega) other hother
    · rw [firstInvalid, if_neg hfirst]
      constructor
      · intro hsome
        cases hsome
        exact ⟨0, rfl, rfl, by simpa using hfirst, fun earlier hearlier ↦
          absurd hearlier (Nat.not_lt_zero earlier)⟩
      · rintro ⟨index, rfl, hbyte, -, hbefore⟩
        cases index with
        | zero =>
          cases hbyte
          rfl
        | succ index => exact absurd (hbefore 0 (by omega) first rfl) hfirst

/-- The fault of a tag is the first fault of the snapshot, in which the flag comes before it. -/
theorem firstInvalid_eq_some_iff_firstFault {flag byte : UInt8} {tag : List UInt8} {offset : Nat} :
    firstInvalid 1 tag = some (byte, offset) ↔ FirstFault (flag :: tag) byte offset := by
  rw [firstInvalid_eq_some_iff]
  constructor
  · rintro ⟨index, rfl, hbyte, hinvalid, hbefore⟩
    refine ⟨by omega, ?_, hinvalid, ?_⟩
    · rw [Nat.add_comm, List.getElem?_cons_succ]
      exact hbyte
    · intro earlier hpositive hearlier other hother
      obtain ⟨earlier, rfl⟩ := Nat.exists_eq_succ_of_ne_zero (Nat.ne_of_gt hpositive)
      exact hbefore earlier (by omega) other hother
  · rintro ⟨hpositive, hbyte, hinvalid, hbefore⟩
    obtain ⟨index, rfl⟩ := Nat.exists_eq_succ_of_ne_zero (Nat.ne_of_gt hpositive)
    refine ⟨index, by omega, hbyte, hinvalid, ?_⟩
    intro earlier hearlier other hother
    exact hbefore (earlier + 1) (by omega) (by omega) other hother

/-! ### What is read -/

theorem decodeFlag_of_ne {byte : UInt8} (hzero : byte ≠ 0) (hone : byte ≠ 1) :
    decodeFlag byte = .error (.invalidFlag byte) := by
  rw [decodeFlag, if_neg hzero, if_neg hone]

/-- A snapshot with a valid flag is read by its tag. -/
theorem decode_flagByte_cons (inString : Bool) (tag : List UInt8) :
    decode (flagByte inString :: tag) =
      match firstInvalid 1 tag with
      | some (byte, offset) => .error (.invalidTagByte byte offset)
      | none => .ok ⟨inString, tag⟩ := by
  cases inString with
  | false => rfl
  | true => rfl

theorem flagByte_cases (inString : Bool) : flagByte inString = 0 ∨ flagByte inString = 1 := by
  cases inString
  · exact .inl rfl
  · exact .inr rfl

theorem exists_eq_flagByte {flag : UInt8} (hflag : flag = 0 ∨ flag = 1) :
    ∃ inString, flag = flagByte inString := by
  rcases hflag with rfl | rfl
  · exact ⟨false, rfl⟩
  · exact ⟨true, rfl⟩

/-- What is read is the initial context from no bytes at all, or else the one context with a
well-formed tag that is written as these bytes. -/
theorem decode_eq_ok_iff {bytes : List UInt8} {context : Context} :
    decode bytes = .ok context ↔
      (bytes = [] ∧ context = initial) ∨ (context.encode = bytes ∧ context.WellTagged) := by
  constructor
  · intro hdecode
    have hwell := wellTagged_of_decode_eq_ok hdecode
    cases bytes with
    | nil =>
      cases hdecode
      exact .inl ⟨rfl, rfl⟩
    | cons flag tag =>
      refine .inr ⟨?_, hwell⟩
      by_cases hflag : flag = 0 ∨ flag = 1
      · obtain ⟨inString, rfl⟩ := exists_eq_flagByte hflag
        rw [decode_flagByte_cons] at hdecode
        split at hdecode
        · cases hdecode
        · cases hdecode
          rfl
      · rw [not_or] at hflag
        rw [decode, decodeFlag_of_ne hflag.1 hflag.2] at hdecode
        cases hdecode
  · rintro (⟨rfl, rfl⟩ | ⟨rfl, hwell⟩)
    · rfl
    · exact decode_encode hwell

/-- The bytes that are refused, each for its own fault. -/
theorem decode_eq_error_iff {bytes : List UInt8} {fault : SnapshotError} :
    decode bytes = .error fault ↔ Refused bytes fault := by
  constructor
  · intro hdecode
    cases bytes with
    | nil => cases hdecode
    | cons flag tag =>
      by_cases hflag : flag = 0 ∨ flag = 1
      · obtain ⟨inString, rfl⟩ := exists_eq_flagByte hflag
        rw [decode_flagByte_cons] at hdecode
        split at hdecode
        · rename_i byte offset hinvalid
          cases hdecode
          exact .tagByte hflag (firstInvalid_eq_some_iff_firstFault.mp hinvalid)
        · cases hdecode
      · rw [not_or] at hflag
        rw [decode, decodeFlag_of_ne hflag.1 hflag.2] at hdecode
        cases hdecode
        exact .flag tag hflag.1 hflag.2
  · rintro (⟨tag, hzero, hone⟩ | ⟨hflag, hfault⟩)
    · rw [decode, decodeFlag_of_ne hzero hone]
    · obtain ⟨inString, rfl⟩ := exists_eq_flagByte hflag
      rw [decode_flagByte_cons, firstInvalid_eq_some_iff_firstFault.mpr hfault]

/-- Assumes: bytes, at least one of them, that can be read. They are the snapshot of what is
read. -/
theorem encode_eq_of_decode {bytes : List UInt8} {context : Context} (hbytes : bytes ≠ [])
    (hdecode : decode bytes = .ok context) : context.encode = bytes := by
  rcases decode_eq_ok_iff.mp hdecode with ⟨hempty, -⟩ | ⟨hencode, -⟩
  · exact absurd hempty hbytes
  · exact hencode

/-- Assumes: a valid flag and a tag that is not well formed. The snapshot is refused at its first
fault. -/
theorem exists_refused_of_not_forall {flag : UInt8} {tag : List UInt8} (hflag : flag = 0 ∨ flag = 1)
    (htag : ¬ ∀ byte ∈ tag, isTagByte byte = true) :
    ∃ byte offset, FirstFault (flag :: tag) byte offset ∧
      decode (flag :: tag) = .error (.invalidTagByte byte offset) := by
  cases hinvalid : firstInvalid 1 tag with
  | none => exact absurd ((firstInvalid_eq_none_iff 1 tag).mp hinvalid) htag
  | some fault =>
    have hfault : FirstFault (flag :: tag) fault.1 fault.2 :=
      firstInvalid_eq_some_iff_firstFault.mp hinvalid
    exact ⟨fault.1, fault.2, hfault, decode_eq_error_iff.mpr (.tagByte hflag hfault)⟩

/-- Bytes are refused if the flag or any byte of the tag is not as it should be. -/
theorem exists_decode_eq_error_iff {bytes : List UInt8} :
    (∃ fault, decode bytes = .error fault) ↔
      ∃ flag tag, bytes = flag :: tag ∧
        ((flag ≠ 0 ∧ flag ≠ 1) ∨ ∃ byte ∈ tag, isTagByte byte = false) := by
  constructor
  · rintro ⟨fault, hdecode⟩
    cases decode_eq_error_iff.mp hdecode with
    | flag tag hzero hone => exact ⟨_, tag, rfl, .inl ⟨hzero, hone⟩⟩
    | tagByte hflag hfault =>
      obtain ⟨index, -, hbyte, hinvalid, -⟩ :=
        firstInvalid_eq_some_iff.mp (firstInvalid_eq_some_iff_firstFault.mpr hfault)
      exact ⟨_, _, rfl, .inr ⟨_, List.mem_of_getElem? hbyte, hinvalid⟩⟩
  · rintro ⟨flag, tag, rfl, hfault⟩
    by_cases hflag : flag = 0 ∨ flag = 1
    · rcases hfault with ⟨hzero, hone⟩ | ⟨byte, hmem, hinvalid⟩
      · exact absurd hflag (not_or.mpr ⟨hzero, hone⟩)
      · have htag : ¬ ∀ byte ∈ tag, isTagByte byte = true := by
          intro hvalid
          exact Bool.false_ne_true (hinvalid.symm.trans (hvalid byte hmem))
        obtain ⟨first, offset, -, hdecode⟩ := exists_refused_of_not_forall hflag htag
        exact ⟨_, hdecode⟩
    · rw [not_or] at hflag
      exact ⟨_, decode_eq_error_iff.mpr (.flag tag hflag.1 hflag.2)⟩

/-! ### The exchanged form -/

/-- Every context is read back from its exchanged form, whatever its tag holds. -/
theorem ofExchange?_exchange {α : Type} {format : ExchangeFormat α} (hfaithful : format.Faithful)
    (context : Context) : ofExchange? format (context.exchange format) = some context := by
  have hfields : format.readRecord? ["in_string", "quoted_tag"] (context.exchange format) =
      some [format.writeBool context.inString, format.writeBytes context.tag] :=
    hfaithful.readRecord?_writeRecord (context.fields format)
      (by decide : ["in_string", "quoted_tag"].Nodup)
  rw [ofExchange?, hfields]
  simp only [hfaithful.readBool?_writeBool, hfaithful.readBytes?_writeBytes]
  rfl

/-! ### Exactness -/

/-- Snapshots are exact and canonical. The snapshot of a context is read as that context exactly if
the tag is well formed, and is refused otherwise at the first fault. What is read from bytes other
than none is written as these bytes, so that no two of them are read as one context. Bytes are
refused exactly if there are any and the flag is neither zero nor one, which is reported whatever
the tag holds, or some later byte is not a tag byte, of which the first is reported. The exchanged
form is read back for every context, in every format that reads back what it has written. -/
theorem snapshot_exact :
    (∀ context : Context,
      (decode context.encode = .ok context ↔ ∀ byte ∈ context.tag, isTagByte byte = true) ∧
        ((¬ ∀ byte ∈ context.tag, isTagByte byte = true) →
          ∃ byte offset, FirstFault context.encode byte offset ∧
            decode context.encode = .error (.invalidTagByte byte offset))) ∧
      (∀ bytes context, decode bytes = .ok context →
        (bytes = [] ∧ context = initial) ∨ context.encode = bytes) ∧
      (∀ bytes others context, bytes ≠ [] → others ≠ [] → decode bytes = .ok context →
        decode others = .ok context → bytes = others) ∧
      (∀ bytes, (∃ fault, decode bytes = .error fault) ↔
        ∃ flag tag, bytes = flag :: tag ∧
          ((flag ≠ 0 ∧ flag ≠ 1) ∨ ∃ byte ∈ tag, isTagByte byte = false)) ∧
      (∀ bytes fault, decode bytes = .error fault ↔ Refused bytes fault) ∧
      ∀ (α : Type) (format : ExchangeFormat α), format.Faithful → ∀ context : Context,
        ofExchange? format (context.exchange format) = some context := by
  refine ⟨?_, ?_, ?_, ?_, ?_, fun _ _ ↦ ofExchange?_exchange⟩
  · intro context
    refine ⟨⟨fun hdecode ↦ wellTagged_of_decode_eq_ok hdecode, decode_encode⟩, ?_⟩
    exact exists_refused_of_not_forall (flagByte_cases context.inString)
  · intro bytes context hdecode
    rcases decode_eq_ok_iff.mp hdecode with hempty | ⟨hencode, -⟩
    · exact .inl hempty
    · exact .inr hencode
  · intro bytes others context hbytes hothers hdecode hother
    exact (encode_eq_of_decode hbytes hdecode).symm.trans (encode_eq_of_decode hothers hother)
  · intro bytes
    exact exists_decode_eq_error_iff
  · intro bytes fault
    exact decode_eq_error_iff

end Context

/-! ### A format -/

/-- A value of a format that has truth values, numbers, lists and records. -/
inductive TreeValue
  | bool (value : Bool)
  | number (value : Nat)
  | list (items : List TreeValue)
  | record (fields : List (String × TreeValue))

namespace TreeValue

def readBool? : TreeValue → Option Bool
  | bool value => some value
  | _ => none

/-- Reads a number from 0 to 255. -/
def readByte? : TreeValue → Option UInt8
  | number value => if value < 256 then some value.toUInt8 else none
  | _ => none

def readBytes? : TreeValue → Option (List UInt8)
  | list items => items.mapM readByte?
  | _ => none

/-- The value of the field with the given name, if exactly one field has it. -/
def field? (fields : List (String × TreeValue)) (name : String) : Option TreeValue :=
  match fields.filter fun field ↦ field.1 == name with
  | [(_, value)] => some value
  | _ => none

/-- Reads the values of a record by the names of its fields; a list gives them in order. -/
def readRecord? (names : List String) : TreeValue → Option (List TreeValue)
  | record fields => names.mapM (field? fields)
  | list items => if items.length = names.length then some items else none
  | _ => none

/-- The format with these values. -/
def format : ExchangeFormat TreeValue where
  writeBool := bool
  readBool? := readBool?
  writeBytes bytes := list (bytes.map fun byte ↦ number byte.toNat)
  readBytes? := readBytes?
  writeRecord := record
  readRecord? := readRecord?

theorem readByte?_toNat (byte : UInt8) : readByte? (number byte.toNat) = some byte := by
  rw [readByte?, if_pos byte.toNat_lt]
  simp

theorem field?_of_mem {fields : List (String × TreeValue)} {field : String × TreeValue}
    (hnodup : (fields.map Prod.fst).Nodup) (hmem : field ∈ fields) :
    field? fields field.1 = some field.2 := by
  have hfilter : (fields.filter fun other ↦ other.1 == field.1) = [field] := by
    induction fields with
    | nil => cases hmem
    | cons first fields ih =>
      rw [List.map_cons, List.nodup_cons] at hnodup
      rcases List.mem_cons.mp hmem with rfl | hlater
      · have hothers : (fields.filter fun other ↦ other.1 == field.1) = [] := by
          refine List.filter_eq_nil_iff.mpr fun other hother hsame ↦ ?_
          exact hnodup.1 (List.mem_map.mpr ⟨other, hother, eq_of_beq hsame⟩)
        rw [List.filter_cons, if_pos (beq_self_eq_true _), hothers]
      · have hother : ¬ (first.1 == field.1) = true := by
          intro hsame
          exact hnodup.1 (List.mem_map.mpr ⟨field, hlater, (eq_of_beq hsame).symm⟩)
        rw [List.filter_cons, if_neg hother, ih hnodup.2 hlater]
  rw [field?, hfilter]

theorem format_faithful : format.Faithful where
  readBool?_writeBool _ := rfl
  readBytes?_writeBytes bytes := by
    change (bytes.map fun byte ↦ number byte.toNat).mapM readByte? = some bytes
    induction bytes with
    | nil => rfl
    | cons byte bytes ih => simp [List.mapM_cons, readByte?_toNat, ih]
  readRecord?_writeRecord fields hnodup := by
    change (fields.map Prod.fst).mapM (field? fields) = some (fields.map Prod.snd)
    have hpart : ∀ part : List (String × TreeValue), part ⊆ fields →
        (part.map Prod.fst).mapM (field? fields) = some (part.map Prod.snd) := by
      intro part hpart
      induction part with
      | nil => rfl
      | cons field part ih =>
        obtain ⟨hfield, hothers⟩ := List.cons_subset.mp hpart
        simp [List.mapM_cons, field?_of_mem hnodup hfield, ih hothers]
    exact hpart fields (List.Subset.refl fields)

end TreeValue

namespace Context

/-- A tag with two bytes that no tag may hold, behind a valid flag and behind an invalid one. In a
format with values of their own for truth values and numbers it is exchanged all the same. -/
theorem snapshot_exact_witness :
    let context : Context := ⟨true, [0x61, 0x7C, 0x5F, 0x41]⟩
    decode context.encode = .error (.invalidTagByte 0x7C 2) ∧
      decode [0x02, 0x61, 0x7C] = .error (.invalidFlag 0x02) ∧
      TreeValue.format.Faithful ∧
      context.exchange TreeValue.format = .record [("in_string", .bool true),
        ("quoted_tag", .list [.number 97, .number 124, .number 95, .number 65])] ∧
      ofExchange? TreeValue.format (context.exchange TreeValue.format) = some context := by
  intro context
  obtain ⟨-, -, -, -, hrefused, hexchanged⟩ := snapshot_exact
  refine ⟨(hrefused _ _).mpr (.tagByte (.inr rfl) ⟨by decide, rfl, by decide, ?_⟩),
    (hrefused _ _).mpr (.flag _ (by decide) (by decide)), TreeValue.format_faithful, rfl,
    hexchanged _ _ TreeValue.format_faithful context⟩
  intro earlier hpositive hearlier other hother
  obtain rfl : earlier = 1 := by omega
  cases hother
  decide

end Context

end GrammarFragments
