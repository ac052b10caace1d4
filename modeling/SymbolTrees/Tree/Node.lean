import SymbolTrees.Symbol.Document
import SymbolTrees.Symbol.Located

/-!
Nodes of symbol trees: what a node stands for, how far it is opened, and the nodes below it.
-/

namespace SymbolTrees

/-- The number of a request to the server. -/
abbrev Token := Int

/-- What a node stands for. -/
inductive Payload where
  | call (item : CallItem)
  | document (symbol : DocumentSymbol)
  /-- A symbol with its own location; where it stands for a call item, that item too. -/
  | located (symbol : LocatedSymbol) (item : Option CallItem)
deriving Inhabited

namespace Payload

def name : Payload → Text
  | call item => item.name
  | document symbol => symbol.name
  | located symbol _ => symbol.name

def kind : Payload → Option SymbolKind
  | call item => item.kind
  | document symbol => symbol.kind
  | located symbol _ => symbol.kind

/-- The item whose calls can be asked for. -/
def callItem? : Payload → Option CallItem
  | call item => some item
  | document _ => none
  | located _ item => item

def isDocument : Payload → Bool
  | document _ => true
  | _ => false

/-- The detail that the server gave, if any. -/
def detail? : Payload → Option Text
  | call item => item.detail
  | document symbol => symbol.detail
  | located symbol _ => symbol.detail

/-- Where the symbol is: its name, or the whole declaration. The symbols of a document are in the
document of the tree; an empty URI is no location. -/
def location? (payload : Payload) (document : Option Text) (whole : Bool) : Option Location :=
  match payload with
  | call item => some ⟨item.uri, if whole then item.range else item.selection⟩
  | .document symbol =>
    match document with
    | none => none
    | some uri =>
      if uri = [] then none else some ⟨uri, if whole then symbol.range else symbol.selection⟩
  | located symbol _ => if symbol.location.uri = [] then none else some symbol.location

end Payload

/-- One occurrence of a symbol in a tree. -/
structure Node where
  payload : Payload
  depth : Int
  expanded : Bool
  /-- The request for the nodes below that is under way. -/
  pending : Option Token
  /-- Where the call that led here is made. -/
  callRanges : List Range
  children : List Node
deriving Inhabited

namespace Node

/-- A node with nothing below it, not opened. -/
def leaf (payload : Payload) (depth : Int) (callRanges : List Range) : Node :=
  ⟨payload, depth, false, none, callRanges, []⟩

def name (node : Node) : Text := node.payload.name

def kind (node : Node) : Option SymbolKind := node.payload.kind

def isLeaf (node : Node) : Bool := node.children.isEmpty

/-- Whether the nodes below are known. -/
def isResolved (node : Node) : Bool := node.expanded || !node.children.isEmpty

/-- Whether the nodes below are on display. -/
def showsChildren (node : Node) : Bool := node.expanded || node.depth == 0

def addChild (node : Node) (payload : Payload) (callRanges : List Range) : Node :=
  { node with children := node.children ++ [leaf payload (node.depth + 1) callRanges] }

mutual

/-- A copy with the depths counted anew. What is under way for the node stays with the node. -/
def copy (depth : Int) : Node → Node
  | ⟨payload, _, expanded, _, callRanges, children⟩ =>
    ⟨payload, depth, expanded, none, callRanges, copyAll (depth + 1) children⟩

def copyAll (depth : Int) : List Node → List Node
  | [] => []
  | node :: rest => copy depth node :: copyAll depth rest

end

mutual

/-- The node and all nodes below it, each before those below it. -/
def walk : Node → List Node
  | ⟨payload, depth, expanded, pending, callRanges, children⟩ =>
    ⟨payload, depth, expanded, pending, callRanges, children⟩ :: walkAll children

def walkAll : List Node → List Node
  | [] => []
  | node :: rest => walk node ++ walkAll rest

end

/-- The node that a path leads to: at each step the position among the children. -/
def at? : Node → List Nat → Option Node
  | node, [] => some node
  | node, i :: path => (node.children[i]?).bind (·.at? path)

/-- The tree with the node at a path changed. -/
def modifyAt (f : Node → Node) : List Nat → Node → Node
  | [], node => f node
  | i :: path, node => { node with children := node.children.modify i (modifyAt f path) }

/-- What a change at a path does to the node there. -/
theorem at?_modifyAt (f : Node → Node) (path : List Nat) (node : Node) :
    (modifyAt f path node).at? path = (node.at? path).map f := by
  induction path generalizing node with
  | nil => rfl
  | cons i path ih =>
    simp only [modifyAt, at?, List.getElem?_modify, if_pos]
    cases node.children[i]? with
    | none => rfl
    | some child => exact ih child

/-- A copy shows the same payload at the depth it is given, and waits for nothing. -/
theorem copy_depth (depth : Int) (node : Node) : (node.copy depth).depth = depth := by
  cases node; rfl

theorem copy_at_depth (depth : Int) (node : Node) :
    { node.copy depth with depth := depth } = node.copy depth := by
  cases node; rfl

theorem copy_pending (depth : Int) (node : Node) : (node.copy depth).pending = none := by
  cases node; rfl

theorem copy_payload (depth : Int) (node : Node) : (node.copy depth).payload = node.payload := by
  cases node; rfl

mutual

/-- The nodes on display, each with its path: the node, and what is on display below it if it shows
its children. -/
def visible (path : List Nat) : Node → List (List Nat × Node)
  | ⟨payload, depth, expanded, pending, callRanges, children⟩ =>
    (path, ⟨payload, depth, expanded, pending, callRanges, children⟩) ::
      if expanded || depth == 0 then visibleAll path 0 children else []

def visibleAll (path : List Nat) (i : Nat) : List Node → List (List Nat × Node)
  | [] => []
  | node :: rest => visible (path ++ [i]) node ++ visibleAll path (i + 1) rest

end

end Node

end SymbolTrees
