import GrammarFragments.Scan.Event

/-!
Restoring the memory of a scanner from a snapshot. A snapshot that cannot be read leaves the scanner
with the initial context, and the fault is reported.
-/

set_option autoImplicit false
set_option relaxedAutoImplicit false

namespace GrammarFragments

/-- The memory of a scanner after a snapshot has been read, and the fault of the snapshot. -/
structure Restored where
  context : Context
  fault : Option SnapshotError
  events : List Event

/-- Restores a context from a snapshot. -/
def Context.restore (snapshot : List UInt8) : Restored :=
  match decode snapshot with
  | .ok context => ⟨context, none, []⟩
  | .error fault => ⟨initial, some fault, [.snapshotDiscarded fault snapshot.length]⟩

end GrammarFragments
