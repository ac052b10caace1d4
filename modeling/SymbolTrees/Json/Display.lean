import SymbolTrees.Json.Basic
import SymbolTrees.Text.Quoted
import SymbolTrees.Text.Integer

/-!
JSON values as texts in labels and messages: a text stands for itself, and inside a list or an
object it stands in quotes. A value is one that JSON text stands for, so that its integers are not
too long to be written.
-/

namespace SymbolTrees.Json

open SymbolTrees.Text (quoted)

mutual

/-- A value as it is written inside a list, or in a message that quotes it. -/
def shown : Json → String
  | null => "None"
  | bool b => if b then "True" else "False"
  | num n => n.text
  | str s => quoted s
  | arr vs => "[" ++ ", ".intercalate (shownEntries vs) ++ "]"
  | obj fs => "\x7b" ++ ", ".intercalate (shownFields fs) ++ "\x7d"

def shownEntries : List Json → List String
  | [] => []
  | v :: rest => shown v :: shownEntries rest

def shownFields : List (Text × Json) → List String
  | [] => []
  | (k, v) :: rest => (quoted k ++ ": " ++ shown v) :: shownFields rest

end

/-- The text of a value. -/
def label : Json → Text
  | str s => s
  | v => v.shown

/-- The value read as an integer: a number loses its fraction, a text is read, and a truth value
counts as zero or one. -/
def toInt : Json → Except Malformed Int
  | num n => n.toInt
  | bool b => pure (if b then 1 else 0)
  | str s =>
    match Text.Integer.ofText? s with
    | some n => pure n
    | none => throw .notAnInteger
  | _ => throw .notANumber

end SymbolTrees.Json
