import SymbolTrees.Number
import SymbolTrees.Text.Basic

/-!
What the user can set.
-/

namespace SymbolTrees

structure Settings where
  /-- The name of the set of icons. -/
  icons : Text
  /-- Whether indents are drawn as lines. -/
  guides : Bool
  /-- Whether the symbols of call items are looked up in the workspace. -/
  resolveSymbols : Bool
  /-- How many seconds a request may take. -/
  timeout : Number
  /-- Whether the cursor is followed to the last symbol before it. -/
  autoFollow : Bool

namespace Settings

/-- Without a file, requests may take ten seconds. -/
def defaultTimeout : Number := .float 10

def default : Settings := ⟨"none", true, false, defaultTimeout, true⟩

end Settings

end SymbolTrees
