import SymbolTrees.Uri.Basic

/-!
Where a document lies, seen from the root of a workspace.
-/

namespace SymbolTrees

/-- Where the document of a URI lies. -/
inductive Whereabouts where
  /-- In the workspace, by its path from the root. -/
  | inside (path : Path)
  /-- In a file outside the workspace. -/
  | outside (path : Path)
  /-- In no file. -/
  | elsewhere (uri : Text)
deriving Repr, DecidableEq

namespace Whereabouts

def ofUri (uri : Text) (root : Path) : Except Malformed Whereabouts := do
  match ← Uri.filePath? uri with
  | none => pure (elsewhere uri)
  | some path =>
    match path.below? root with
    | some relative => pure (inside relative)
    | none => pure (outside path)

def text : Whereabouts → Text
  | inside path => path.text
  | outside path => path.text
  | elsewhere uri => uri

def isInside : Whereabouts → Bool
  | inside _ => true
  | _ => false

end Whereabouts

end SymbolTrees
