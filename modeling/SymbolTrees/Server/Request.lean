import SymbolTrees.Symbol.CallItem

/-!
Requests to a language server.
-/

namespace SymbolTrees.Server

/-- What a server can be asked. -/
inductive Method where
  /-- The call items at a position. -/
  | prepareCalls
  /-- The calls to or from an item. -/
  | calls (direction : CallDirection)
  | documentSymbols
  | workspaceSymbols
deriving Repr, DecidableEq

namespace Method

def text : Method → String
  | prepareCalls => "textDocument/prepareCallHierarchy"
  | calls .incoming => "callHierarchy/incomingCalls"
  | calls .outgoing => "callHierarchy/outgoingCalls"
  | documentSymbols => "textDocument/documentSymbol"
  | workspaceSymbols => "workspace/symbol"

def all : List Method :=
  [prepareCalls, calls .incoming, calls .outgoing, documentSymbols, workspaceSymbols]

def ofText? (s : Text) : Option Method := all.find? fun m => m.text = s

end Method

inductive Request where
  | prepareCalls (uri : Text) (line character : Int)
  | calls (direction : CallDirection) (item : CallItem)
  | documentSymbols (uri : Text)
  | workspaceSymbols (query : Text)

namespace Request

def method : Request → Method
  | prepareCalls .. => .prepareCalls
  | calls direction _ => .calls direction
  | documentSymbols _ => .documentSymbols
  | workspaceSymbols _ => .workspaceSymbols

def document (uri : Text) : Json := .obj [("uri", .str uri)]

/-- The parameters as they are sent. -/
def params : Request → Json
  | prepareCalls uri line character =>
    .obj [("textDocument", document uri), ("position", Position.toJson ⟨line, character⟩)]
  | calls _ item => .obj [("item", item.toJson)]
  | documentSymbols uri => .obj [("textDocument", document uri)]
  | workspaceSymbols query => .obj [("query", .str query)]

end Request

/-- What becomes of a request. -/
inductive Outcome where
  | answer (value : Json)
  | failure (text : Text)
  | cancelled

namespace Outcome

/-- Why there is no answer. -/
def error? : Outcome → Option Text
  | answer _ => none
  | failure text => some text
  | cancelled => some "cancelled"

end Outcome

end SymbolTrees.Server
