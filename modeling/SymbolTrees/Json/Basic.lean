import SymbolTrees.Number
import SymbolTrees.Table
import SymbolTrees.Text.Basic

/-!
JSON values with their fields in order, and how a value of unknown shape is read: a field, the
entries, an integer. What a value cannot be read as is a `Malformed`.
-/

namespace SymbolTrees

/-- A JSON value. The names of the fields of an object are distinct. -/
inductive Json where
  | null
  | bool (b : Bool)
  | num (n : Number)
  | str (s : Text)
  | arr (entries : List Json)
  | obj (fields : List (Text × Json))
deriving Inhabited

namespace Json

abbrev Fields := Table Text Json

def ofInt (n : Int) : Json := num (.int n)

/-- Whether a value counts as present: nothing, zero and what is empty do not. -/
def isPresent : Json → Bool
  | null => false
  | bool b => b
  | num n => !n.isZero
  | str s => !s.isEmpty
  | arr vs => !vs.isEmpty
  | obj fs => !fs.isEmpty

/-- The value unless it does not count as present. -/
def present? (v : Option Json) : Option Json := v.filter isPresent

/-- The fields of an object. -/
def fields : Json → Except Malformed Fields
  | obj fs => pure fs
  | _ => throw .notAnObject

def field? (v : Json) (name : Text) : Except Malformed (Option Json) :=
  return (← v.fields).get? name

/-- A part of an object that is itself an object, empty where it is missing. -/
def part (v : Json) (name : Text) : Except Malformed Json :=
  return (present? (← v.field? name)).getD (obj [])

/-- The entries of a list, the places of a text or the names of the fields of an object. -/
def entries : Json → Except Malformed (List Json)
  | arr vs => pure vs
  | str s => pure (s.map fun g => str [g])
  | obj fs => pure (fs.map fun f => str f.1)
  | _ => throw .notAList

/-- The entries of what counts as present, and none otherwise. -/
def entriesOrNone (v : Option Json) : Except Malformed (List Json) :=
  match present? v with
  | none => pure []
  | some v => v.entries

def text? : Json → Option Text
  | str s => some s
  | _ => none

def isObject : Json → Bool
  | obj _ => true
  | _ => false

end Json

end SymbolTrees
