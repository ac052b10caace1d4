import SymbolTrees.Symbol.Kind
import SymbolTrees.Symbol.Range

/-!
Items of a call hierarchy, and the calls that lead to or from them.

An item keeps the object it was read from, because a server expects it back unchanged.
-/

namespace SymbolTrees

/-- A function, method or similar symbol whose calls can be asked for. -/
structure CallItem where
  name : Text
  kind : Option SymbolKind
  uri : Text
  range : Range
  selection : Range
  detail : Option Text
  /-- The object that the item was read from; empty if there was none. -/
  source : Json.Fields
deriving Inhabited

namespace CallItem

def ofFields (source : Json.Fields) : Except Malformed CallItem := do
  let data := Json.obj source
  let range ← Range.ofPart data "range"
  return {
    name := ← data.labelField "name"
    kind := SymbolKind.ofJson? (← data.field? "kind")
    uri := ← data.labelField "uri"
    range := range
    selection := ← Range.selectionOf data range
    detail := ← data.textField? "detail"
    source := source }

def ofJson (data : Json) : Except Malformed CallItem := do
  ofFields (← data.fields)

/-- The object of the parsed fields alone; an unknown kind is written as zero. -/
def parsedFields (item : CallItem) : Json.Fields :=
  ("name", .str item.name) ::
  ("kind", .ofInt ((item.kind.map SymbolKind.code).getD 0)) ::
  ("uri", .str item.uri) ::
  ("range", item.range.toJson) ::
  ("selectionRange", item.selection.toJson) ::
  match item.detail with
  | some detail => [("detail", .str detail)]
  | none => []

/-- What a server gets back: the object that it sent, if there is one. -/
def toJson (item : CallItem) : Json :=
  .obj (if item.source.isEmpty then item.parsedFields else item.source)

end CallItem

/-- The two ways to follow calls. -/
inductive CallDirection where
  | incoming
  | outgoing
deriving Repr, DecidableEq, Inhabited

namespace CallDirection

def text : CallDirection → String
  | incoming => "incoming"
  | outgoing => "outgoing"

def flip : CallDirection → CallDirection
  | incoming => outgoing
  | outgoing => incoming

@[simp] theorem flip_flip (d : CallDirection) : d.flip.flip = d := by cases d <;> rfl

/-- The field of a call that holds the item at its other end. -/
def peer : CallDirection → String
  | incoming => "from"
  | outgoing => "to"

end CallDirection

/-- A call: the item at its other end and the places where it is made. -/
structure Call where
  item : CallItem
  ranges : List Range

/-- A call whose item stands in the field `peer`. -/
def Call.ofJson (data : Json) (peer : Text) : Except Malformed Call := do
  let item ← CallItem.ofJson (← data.part peer)
  let ranges ← Json.entriesOrNone (← data.field? "fromRanges")
  return { item := item, ranges := ← ranges.mapM Range.ofJson }

end SymbolTrees
