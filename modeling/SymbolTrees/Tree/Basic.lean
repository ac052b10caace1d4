import SymbolTrees.Fault
import SymbolTrees.Tree.Node
import SymbolTrees.Path

/-!
Trees of symbols. A tree owns its nodes and the two maps of its last rendering: from rows to nodes,
and from lines of source files to rows.

A node is named by its place in the tree. When everything below the root is discarded, the nodes
cut off stay with the tree, so that whoever still holds a place can use it; they are no part of the
tree any more.
-/

namespace SymbolTrees

/-- Where a node is: below which of the successive generations of the root's children, and on what
path. The root itself is in every generation. -/
structure Place where
  generation : Nat
  path : List Nat
deriving Repr, DecidableEq, Inhabited

/-- The row on display for a line of a source file. -/
structure SourceLine where
  path : Option Path
  uri : Text
  line : Int
deriving Repr, DecidableEq, Inhabited

structure Tree where
  handle : Int
  root : Node
  direction : Direction
  uri : Option Text
  hidden : Bool
  closed : Bool
  /-- The children of the root that were cut off, the oldest first. -/
  former : List (List Node)
  lineMap : Table Int Place
  sourceMap : Table Int SourceLine

namespace Tree

/-- A new tree. The direction has to be known, and the root is at depth zero. -/
def make (handle : Int) (root : Node) (direction : Direction) (uri : Option Text) :
    Except Fault Tree := do
  let _ ← direction.kind
  pure ⟨handle, { root with depth := 0 }, direction, uri, false, false, [], [], []⟩

/-- Stands for a tree that was never made; it is closed. -/
def vacant : Tree :=
  ⟨0, .leaf (.located ⟨"", none, ⟨"", ⟨⟨0, 0⟩, ⟨0, 0⟩⟩⟩, none, none⟩ none) 0 [], .outline, none,
    false, true, [], [], []⟩

instance : Inhabited Tree := ⟨vacant⟩

/-- How often everything below the root was discarded. -/
def generation (t : Tree) : Nat := t.former.length

def isCallTree (t : Tree) : Bool := t.direction.calls?.isSome

/-- The place of a node of the tree by its path from the root. -/
def place (t : Tree) (path : List Nat) : Place := ⟨t.generation, path⟩

/-- The node at a place, also if it was cut off. -/
def node? (t : Tree) (p : Place) : Option Node :=
  if p.path.isEmpty || p.generation == t.generation then t.root.at? p.path
  else (t.former[p.generation]?).bind fun cut => { t.root with children := cut }.at? p.path

/-- The node at a place; the root where there is none. -/
def node (t : Tree) (p : Place) : Node := (t.node? p).getD t.root

/-- Whether the node at a place is part of the tree. -/
def contains (t : Tree) (p : Place) : Bool :=
  (p.path.isEmpty || p.generation == t.generation) && (t.root.at? p.path).isSome

/-- The tree with the node at a place changed, also if it was cut off. -/
def modify (t : Tree) (p : Place) (f : Node → Node) : Tree :=
  if p.path.isEmpty || p.generation == t.generation then
    { t with root := t.root.modifyAt f p.path }
  else
    { t with former := t.former.modify p.generation fun cut =>
        ({ t.root with children := cut }.modifyAt f p.path).children }

/-- The node on a row of the last rendering. -/
def nodeAt? (t : Tree) (line : Int) : Option Place := t.lineMap.get? line

/-- The row of the symbol that starts on a line of the source file. -/
def sourceLine? (t : Tree) (fileLine : Int) : Option SourceLine := t.sourceMap.get? fileLine

/-- The row of the last symbol that starts on a line of the source file or before it. -/
def nearestSourceLine? (t : Tree) (fileLine : Int) : Option SourceLine :=
  let starts := t.sourceMap.filterMap fun entry =>
    if entry.1 ≤ fileLine then some entry.1 else none
  starts.max?.bind t.sourceLine?

/-- Everything below the root is cut off. -/
def discardBelowRoot (t : Tree) : Tree :=
  { t with
    root := { t.root with children := [], expanded := false, pending := none }
    former := t.former ++ [t.root.children] }

/-- A closed tree has no rows. -/
def close (t : Tree) : Tree := { t with closed := true, lineMap := [], sourceMap := [] }

end Tree

end SymbolTrees
