import SymbolTrees.Tree.Basic
import SymbolTrees.View.Icons
import SymbolTrees.Workspace

/-!
The rows of a tree on display. A row is an indent, a sign that says whether the node is opened, its
kind and its name:

    <indent><sign> <icon>  <name>
    <indent><sign>  [<kind>] • <name>

The detail of a node stands after its row, so that it moves nothing.
-/

namespace SymbolTrees

/-- How rows are drawn. -/
structure Style where
  icons : IconSet
  guides : Bool
  /-- The root of the workspace, which the paths of files are shown from. -/
  root : Path
deriving Repr, DecidableEq, Inhabited

/-- The indent of a depth: a blank for the first level and a line with a blank for every other, or
without guides a blank for each. -/
def Style.indent (style : Style) (depth : Int) : List Char :=
  if style.guides then
    (List.range depth.toNat).flatMap fun level => if level = 0 then [' '] else ['⎸', ' ']
  else List.replicate depth.toNat ' '

namespace Node

/-- The sign of a node, blank where it is known that nothing lies below it: the symbols of a
document come complete, calls are known once they are opened. -/
def sign (node : Node) (icons : IconSet) : Char :=
  let isKnownLeaf := node.isLeaf && (node.payload.isDocument || node.expanded)
  if isKnownLeaf then ' ' else if node.expanded then icons.expanded else icons.collapsed

/-- The kind and the name of a node. -/
def caption (node : Node) (icons : IconSet) : Text :=
  let label := SymbolKind.labelOf node.kind
  if icons.name = IconSet.plain.name then " [" ++ label ++ "] • " ++ node.name
  else icons.iconFor label ++ "  " ++ node.name

def rowText (node : Node) (style : Style) : Text :=
  Text.ofChars (style.indent node.depth ++ [node.sign style.icons, ' ']) ++
    node.caption style.icons

/-- The path of the node's file if it lies in the workspace, and otherwise the detail that the
server gave. -/
def rowDetail (node : Node) (root : Path) : Except Malformed Text := do
  let given := node.payload.detail?.getD []
  let uri? := match node.payload with
    | .call item => some item.uri
    | .located symbol _ => some symbol.location.uri
    | .document _ => none
  match uri? with
  | none => pure given
  | some uri =>
    let place ← Whereabouts.ofUri uri root
    pure (if place.isInside then place.text else given)

end Node

/-- A row on display. -/
structure Row where
  /-- The path to its node from the root. -/
  path : List Nat
  node : Node
  text : Text
  detail : Text
  /-- The file and the location of its symbol. -/
  source : Option (Option Path × Location)

/-- What is on display of a tree. -/
abbrev View := List Row

namespace View

/-- The row of a node. -/
def row (document : Option Text) (style : Style) (path : List Nat) (node : Node) :
    Except Malformed Row := do
  let detail ← node.rowDetail style.root
  let source ← (node.payload.location? document true).mapM fun location =>
    return (← Uri.filePath? location.uri, location)
  pure ⟨path, node, node.rowText style, detail, source⟩

/-- One row for every node on display, from the root down. -/
def ofTree (tree : Tree) (style : Style) : Except Malformed View :=
  (tree.root.visible []).mapM fun (path, node) => row tree.uri style path node

/-- The rows with their numbers, from one. -/
def numbered (view : View) : List (Nat × Row) :=
  view.zipIdx.map fun (row, i) => (i + 1, row)

def lines (view : View) : List Text := view.map Row.text

/-- The details that are not empty, with the numbers of their rows. -/
def annotations (view : View) : List (Int × Text) :=
  view.numbered.filterMap fun (number, row) =>
    if row.detail = [] then none else some ((number : Int), row.detail)

/-- The node of every row. -/
def lineMap (view : View) (tree : Tree) : Table Int Place :=
  view.numbered.map fun (number, row) => ((number : Int), tree.place row.path)

/-- The row of every line of a source file on which a symbol starts, of several the last. -/
def sourceMap (view : View) : Table Int SourceLine :=
  Table.ofList (view.numbered.filterMap fun (number, row) =>
    row.source.map fun (file, location) =>
      (location.range.start.line + 1, ⟨file, location.uri, number⟩))

end View

/-- The tree with the maps of its rows. -/
def Tree.show (tree : Tree) (view : View) : Tree :=
  { tree with lineMap := view.lineMap tree, sourceMap := view.sourceMap }

end SymbolTrees
