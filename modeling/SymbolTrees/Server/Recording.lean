import SymbolTrees.Server.Request

/-!
Recorded answers. A recording is an object with the answer to every request that can be made: the
call item in `item`, calls by the names of items in `incomingCalls` and `outgoingCalls`, symbols by
query in `workspaceSymbols` and by URI in `documentSymbols`. What is missing is an empty answer.
-/

namespace SymbolTrees.Server.Recording

/-- The entries that a table of the recording holds under a name. Only a text names any; a number,
a truth value or nothing names none. -/
def entriesFor (recording : Json) (table : Text) (name : Json) : Except Malformed Json := do
  let fields ← (← recording.part table).fields
  match name with
  | .str s => return .arr (← ((fields.get? s).getD (.arr [])).entries)
  | .arr _ | .obj _ => throw .notAName
  | _ => pure (.arr [])

/-- A field of the parameters, empty text where it is missing. -/
def nameIn (params : Json) (field : Text) : Except Malformed Json :=
  return (← params.field? field).getD (.str "")

/-- The answer to a request. -/
def answer (recording : Json) (method : Method) (params : Json) : Except Malformed Json := do
  match method with
  | .prepareCalls =>
    match Json.present? (← recording.field? "item") with
    | some item => pure (.arr [item])
    | none => pure (.arr [])
  | .calls direction =>
    entriesFor recording (direction.text ++ "Calls") (← nameIn (← params.part "item") "name")
  | .workspaceSymbols => entriesFor recording "workspaceSymbols" (← nameIn params "query")
  | .documentSymbols =>
    entriesFor recording "documentSymbols" (← nameIn (← params.part "textDocument") "uri")

end SymbolTrees.Server.Recording
