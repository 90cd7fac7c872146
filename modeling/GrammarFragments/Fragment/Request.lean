import GrammarFragments.Fragment.Kind
import GrammarFragments.Text.Hex

/-!
A request names the kinds of fragments that the grammar permits at one point of the text. It is a
byte with one bit for each kind. The other bits mean nothing, but they are kept and show in the
written form.
-/

set_option autoImplicit false
set_option relaxedAutoImplicit false

namespace GrammarFragments

/-- The kinds of fragments that are permitted, as bits. -/
structure Request where
  bits : UInt8
  deriving DecidableEq, Repr

namespace Request

/-- The request that permits nothing. -/
def empty : Request := ⟨0⟩

/-- The request that permits one kind more. -/
def insert (request : Request) (kind : FragmentKind) : Request := ⟨request.bits ||| kind.bit⟩

/-- The request permits fragments of the kind. -/
def permits (request : Request) (kind : FragmentKind) : Bool := request.bits &&& kind.bit != 0

/-- The permitted kinds, in the order of their symbol numbers. -/
def kinds (request : Request) : List FragmentKind := FragmentKind.all.filter request.permits

/-- The request that permits the kinds whose flags are set, where the place of a flag is a symbol
number. A flag that is missing is not set, and flags without a kind are of no account. -/
def ofFlags (flags : List Bool) : Request :=
  FragmentKind.all.foldl
    (fun request kind ↦ if flags[kind.symbol]? = some true then request.insert kind else request)
    empty

/-! ### Bits without a kind -/

/-- The bits that stand for kinds. -/
def knownBits : UInt8 := 0x1F

/-- The bits of a request that stand for no kind. -/
def unknownBits (request : Request) : UInt8 := request.bits &&& ~~~knownBits

/-- The request with only the bits that stand for kinds. -/
def known (request : Request) : Request := ⟨request.bits &&& knownBits⟩

/-- The request with the given bits, if each of them stands for a kind. -/
def ofKnownBits? (bits : UInt8) : Option Request :=
  if Request.unknownBits ⟨bits⟩ = 0 then some ⟨bits⟩ else none

/-- The written form: the names of the bits that are set, then the other bits as one number. -/
def describe (request : Request) : String :=
  let names := request.kinds.map FragmentKind.flagName
  let others := if request.unknownBits = 0 then [] else [hexText request.unknownBits.toNat]
  let parts := if request.bits = 0 then [hexText 0] else names ++ others
  "ValidTokens(" ++ String.intercalate " | " parts ++ ")"

end Request

end GrammarFragments
