/-!
The kinds of fragments of a grammar file that need more than a context-free grammar to delimit. The
place of a kind in the list of all kinds is its symbol number, by which a host engine knows it, and
the position of its bit in a request.
-/

set_option autoImplicit false
set_option relaxedAutoImplicit false

namespace GrammarFragments

/-- The kinds of fragments. -/
inductive FragmentKind
  /-- A comment, from `(*` to the `*)` that balances it. -/
  | comment
  /-- A double quote that opens or closes a grammar-level string. -/
  | quoteMark
  /-- Embedded code up to the brace that balances the one before it. -/
  | code
  /-- A type up to the `>` that ends it. -/
  | typeExpr
  /-- The payload of an attribute up to the square bracket that balances the one before it. -/
  | payload
  deriving DecidableEq, Repr

namespace FragmentKind

/-- All kinds, in the order of their symbol numbers. -/
def all : List FragmentKind := [comment, quoteMark, code, typeExpr, payload]

/-- The symbol number of a kind. -/
def symbol : FragmentKind → Nat
  | comment => 0
  | quoteMark => 1
  | code => 2
  | typeExpr => 3
  | payload => 4

/-- The kind with a symbol number. -/
def ofSymbol? (symbol : Nat) : Option FragmentKind := all[symbol]?

/-- Kinds are ordered by their symbol numbers. -/
instance : Ord FragmentKind where
  compare first second := compare first.symbol second.symbol

/-- The bit of a kind in a request. -/
def bit : FragmentKind → UInt8
  | comment => 0x01
  | quoteMark => 0x02
  | code => 0x04
  | typeExpr => 0x08
  | payload => 0x10

/-! ### Names -/

/-- The name of the node that a fragment becomes in a syntax tree. -/
def nodeName : FragmentKind → String
  | comment => "ocaml_comment"
  | quoteMark => "\""
  | code => "ocaml"
  | typeExpr => "ocaml_type"
  | payload => "attribute_payload"

/-- The name of a kind in exchanged data. -/
def exchangeName : FragmentKind → String
  | comment => "Comment"
  | quoteMark => "StringDelimiter"
  | code => "EmbeddedCode"
  | typeExpr => "TypeExtent"
  | payload => "AttributeExtent"

/-- The name of the bit of a kind in a written request. -/
def flagName : FragmentKind → String
  | comment => "COMMENT"
  | quoteMark => "STRING_DELIMITER"
  | code => "EMBEDDED_CODE"
  | typeExpr => "TYPE_EXTENT"
  | payload => "ATTRIBUTE_EXTENT"

/-- The kind with a name in exchanged data. -/
def ofExchangeName? (name : String) : Option FragmentKind :=
  all.find? fun kind ↦ kind.exchangeName == name

end FragmentKind

/-- A fragment found in a source, by byte offsets. -/
structure Fragment where
  kind : FragmentKind
  start : Nat
  length : Nat
  deriving DecidableEq, Repr

/-- The offset after the last byte of a fragment. -/
def Fragment.stop (fragment : Fragment) : Nat := fragment.start + fragment.length

end GrammarFragments
