/-!
What a scanner remembers from one scan to the next, and what a recognizer gives back.
-/

set_option autoImplicit false
set_option relaxedAutoImplicit false

namespace GrammarFragments

/-- The memory of a scanner: whether the text so far has an open grammar-level string, and the tag
of the quoted text that was opened last. The tag means something only between the opening of a
quoted text and its close or abandonment; it is empty otherwise. -/
structure Context where
  inString : Bool
  tag : List UInt8
  deriving DecidableEq, Repr

namespace Context

/-- Outside of any string, with no tag. -/
def initial : Context := ⟨false, []⟩

instance : Inhabited Context := ⟨initial⟩

/-- Forgets the tag. -/
def clearTag (context : Context) : Context := { context with tag := [] }

end Context

/-- What a recognizer gives back: whether its construct was found complete, the reader where the
attempt ended, and the memory it leaves. -/
structure Outcome (ρ : Type) where
  matched : Bool
  reader : ρ
  context : Context

end GrammarFragments
