import SymbolTrees.Table
import SymbolTrees.Text.Basic
import SymbolTrees.Text.Split

/-!
Buffers: the text of each tree as the editor holds it.
-/

namespace SymbolTrees

/-- The rows of a tree, with annotations by the numbers of the rows. -/
structure Buffer where
  lines : List Text
  annotations : Table Int Text
  visible : Bool
  /-- How often the rows were replaced. -/
  writes : Nat
deriving Repr, DecidableEq, Inhabited

namespace Buffer

def empty : Buffer := ⟨[], [], true, 0⟩

/-- A row with its annotation, if that is not empty, after two blanks. -/
def annotated (b : Buffer) (number : Int) (line : Text) : Text :=
  match b.annotations.get? number with
  | some note => if note = [] then line else line ++ "  " ++ note
  | none => line

def text (b : Buffer) : Text :=
  Text.join (.char '\n') (b.lines.zipIdx.map fun (line, i) => b.annotated (i + 1 : Nat) line)

end Buffer

/-- The buffers by the handles of their trees. -/
abbrev Buffers := Table Int Buffer

namespace Buffers

def buffer (buffers : Buffers) (handle : Int) : Buffer := (buffers.get? handle).getD .empty

def replace (buffers : Buffers) (handle : Int) (lines : List Text)
    (annotations : List (Int × Text)) : Buffers :=
  let b := buffers.buffer handle
  buffers.put handle
    { b with lines := lines, annotations := .ofList annotations, writes := b.writes + 1 }

def setVisible (buffers : Buffers) (handle : Int) (visible : Bool) : Buffers :=
  buffers.put handle { buffers.buffer handle with visible := visible }

def discard (buffers : Buffers) (handle : Int) : Buffers := buffers.erase handle

end Buffers

end SymbolTrees
