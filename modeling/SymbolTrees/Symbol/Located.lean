import SymbolTrees.Symbol.CallItem

/-!
Symbols with a location of their own, as a search over the workspace answers them and as older
servers list the symbols of a document.
-/

namespace SymbolTrees

structure LocatedSymbol where
  name : Text
  kind : Option SymbolKind
  location : Location
  container : Option Text
  detail : Option Text
deriving Repr, DecidableEq, Inhabited

namespace LocatedSymbol

def ofJson (data : Json) : Except Malformed LocatedSymbol := do
  let location ← Location.ofJson (← data.part "location")
  return {
    name := ← data.labelField "name"
    kind := SymbolKind.ofJson? (← data.field? "kind")
    location := location
    container := ← data.textField? "containerName"
    detail := ← data.textField? "detail" }

/-- Whether the symbol is the item: the same name in the same document, around the item's own
name. -/
def describes (symbol : LocatedSymbol) (item : CallItem) : Bool :=
  symbol.name == item.name && symbol.location.uri == item.uri &&
    symbol.location.range.contains item.selection

/-- The first of the objects in a list that describes the item. -/
def firstFor (item : CallItem) : List Json → Except Malformed (Option LocatedSymbol)
  | [] => pure none
  | v :: rest =>
    if v.isObject then do
      let symbol ← ofJson v
      if symbol.describes item then pure (some symbol) else firstFor item rest
    else firstFor item rest

/-- The symbol for an item in the answer to a search; an answer that is no list holds none. -/
def find? (item : CallItem) : Json → Except Malformed (Option LocatedSymbol)
  | .arr entries => firstFor item entries
  | _ => pure none

end LocatedSymbol

end SymbolTrees
