import SymbolTrees.Symbol.Kind
import SymbolTrees.Symbol.Range

/-!
Symbols of one document, which come nested.
-/

namespace SymbolTrees

/-- A symbol of a document with the symbols declared inside it. -/
structure DocumentSymbol where
  name : Text
  kind : Option SymbolKind
  range : Range
  selection : Range
  detail : Option Text
  children : List DocumentSymbol
deriving Inhabited

namespace DocumentSymbol

/-- Whether a value has the shape of a nested symbol: a range of its own and no location. -/
def isNested (data : Json) : Bool :=
  match data with
  | .obj fields =>
    Table.contains fields "range" && !Table.contains fields "location"
  | _ => false

mutual

def ofJson : Json → Except Malformed DocumentSymbol
  | .obj fields => do
    let data := Json.obj fields
    let range ← Range.ofPart data "range"
    let selection ← Range.selectionOf data range
    return {
      name := ← data.labelField "name"
      kind := SymbolKind.ofJson? (← data.field? "kind")
      range := range
      selection := selection
      detail := ← data.textField? "detail"
      children := ← ofChildren fields }
  | _ => throw .notAnObject

/-- The symbols in the field `children`; none where it is missing or does not count as present. -/
def ofChildren : List (Text × Json) → Except Malformed (List DocumentSymbol)
  | [] => pure []
  | (name, v) :: rest => if name = "children" then ofEntries v else ofChildren rest

def ofEntries : Json → Except Malformed (List DocumentSymbol)
  | .arr entries => ofList entries
  | .num n => if n.isZero then pure [] else throw .notAList
  | .bool b => if b then throw .notAList else pure []
  | .str s => if s.isEmpty then pure [] else throw .notAnObject
  | .obj [] => pure []
  | .obj (_ :: _) => throw .notAnObject
  | .null => pure []

def ofList : List Json → Except Malformed (List DocumentSymbol)
  | [] => pure []
  | v :: rest => do
    let symbol ← ofJson v
    return symbol :: (← ofList rest)

end

end DocumentSymbol

end SymbolTrees
