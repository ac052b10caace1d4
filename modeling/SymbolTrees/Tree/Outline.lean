import SymbolTrees.Tree.Node
import SymbolTrees.Fault
import SymbolTrees.Uri.Basic

/-!
The roots of new trees. The outline of a document is complete from the start; a call tree starts
with its root alone.
-/

namespace SymbolTrees.Node

/-- The beginning of a document. -/
def origin : Range := ⟨⟨0, 0⟩, ⟨0, 0⟩⟩

/-- The root of an outline: the document itself, opened. -/
def documentRoot (uri : Text) : Except Malformed Node := do
  let name ← Uri.documentName uri
  pure { leaf (.document ⟨name, some .file, origin, origin, none, []⟩) 0 [] with expanded := true }

mutual

/-- The node of a symbol with the nodes of the symbols inside it, none of them opened. -/
def ofSymbol (depth : Int) : DocumentSymbol → Node
  | ⟨name, kind, range, selection, detail, children⟩ =>
    { leaf (.document ⟨name, kind, range, selection, detail, children⟩) depth [] with
      children := ofSymbols (depth + 1) children }

def ofSymbols (depth : Int) : List DocumentSymbol → List Node
  | [] => []
  | symbol :: rest => ofSymbol depth symbol :: ofSymbols depth rest

end

/-- An entry of an outline. -/
inductive Entry where
  | nested (symbol : DocumentSymbol)
  | flat (symbol : LocatedSymbol)
  /-- As the server sent it. -/
  | raw (value : Json)

namespace Entry

/-- An object that a server sent, read by its shape. -/
def read (value : Json) : Except Malformed Entry := do
  if DocumentSymbol.isNested value then
    pure (nested (← DocumentSymbol.ofJson value))
  else
    pure (flat (← LocatedSymbol.ofJson value))

/-- The node of an entry. -/
def node : Entry → Except Fault Node
  | nested symbol => pure (ofSymbol 1 symbol)
  | flat symbol => pure (leaf (.located symbol none) 1 [])
  | raw value => do
    if DocumentSymbol.isNested value then
      pure (ofSymbol 1 (← (DocumentSymbol.ofJson value : Except Malformed _)))
    else if value.isObject then
      pure (leaf (.located (← (LocatedSymbol.ofJson value : Except Malformed _)) none) 1 [])
    else throw (.noSymbol value)

end Entry

/-- The outline of a document from its entries. -/
def outline (uri : Text) (entries : List Entry) : Except Fault Node := do
  let root ← (documentRoot uri : Except Malformed _)
  return { root with children := ← entries.mapM Entry.node }

/-- The outline of a document from a server's answer. -/
def outlineOfJson (uri : Text) (answer : Json) : Except Fault Node := do
  let _ ← (documentRoot uri : Except Malformed _)
  outline uri ((← (answer.entries : Except Malformed _)).map Entry.raw)

/-- The root of a call tree. -/
def callRoot : Payload → Except Fault Node
  | .document _ => throw .noCallPayload
  | payload => pure (leaf payload 0 [])

end SymbolTrees.Node
