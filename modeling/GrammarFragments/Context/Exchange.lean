import GrammarFragments.Context.Basic

/-!
Exchanging a context with other programs. A format for exchanged data comes from outside: how it
writes truth values, lists of bytes and records is a parameter (`ExchangeFormat`), and what is
relied on is that it reads back what it has written (`ExchangeFormat.Faithful`). A context is
exchanged as a record of its flag and its tag; the bytes of the tag are taken as they are.
-/

set_option autoImplicit false
set_option relaxedAutoImplicit false

namespace GrammarFragments

/-- A format for exchanged data with values of the given type. -/
structure ExchangeFormat (α : Type) where
  writeBool : Bool → α
  readBool? : α → Option Bool
  /-- Writes bytes as a list of numbers. -/
  writeBytes : List UInt8 → α
  readBytes? : α → Option (List UInt8)
  /-- Writes a record, whose fields have names. -/
  writeRecord : List (String × α) → α
  /-- Reads a record with fields of the given names, and gives their values in that order. -/
  readRecord? : List String → α → Option (List α)

/-- The laws of a format. The order and the number of the fields of a record are free, but no two of
them have the same name. -/
structure ExchangeFormat.Faithful {α : Type} (format : ExchangeFormat α) : Prop where
  readBool?_writeBool : ∀ value, format.readBool? (format.writeBool value) = some value
  readBytes?_writeBytes : ∀ bytes, format.readBytes? (format.writeBytes bytes) = some bytes
  readRecord?_writeRecord : ∀ fields : List (String × α), (fields.map Prod.fst).Nodup →
    format.readRecord? (fields.map Prod.fst) (format.writeRecord fields) =
      some (fields.map Prod.snd)

namespace Context

variable {α : Type} (format : ExchangeFormat α)

/-- The fields of an exchanged context. -/
def fields (context : Context) : List (String × α) :=
  [("in_string", format.writeBool context.inString),
    ("quoted_tag", format.writeBytes context.tag)]

/-- The exchanged form of a context. -/
def exchange (context : Context) : α := format.writeRecord (context.fields format)

/-- Reads a context from its exchanged form. -/
def ofExchange? (value : α) : Option Context :=
  match format.readRecord? ["in_string", "quoted_tag"] value with
  | some [inString, tag] => do return ⟨← format.readBool? inString, ← format.readBytes? tag⟩
  | _ => none

end Context

end GrammarFragments
