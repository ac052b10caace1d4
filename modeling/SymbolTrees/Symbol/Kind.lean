import SymbolTrees.Json.Basic

/-!
The kinds of symbols that a language server tells apart.
-/

namespace SymbolTrees

/-- The kinds in the order of their codes. -/
inductive SymbolKind where
  | file | moduleUnit | nameScope | package | classType | method | property | field
  | constructor | enum | interface | function | variable | constant | string | number | boolean
  | array | object | key | null | enumMember | struct | event | operator | typeParameter
deriving Repr, DecidableEq

namespace SymbolKind

def all : List SymbolKind :=
  [.file, .moduleUnit, .nameScope, .package, .classType, .method, .property, .field,
   .constructor, .enum, .interface, .function, .variable, .constant, .string, .number,
   .boolean, .array, .object, .key, .null, .enumMember, .struct, .event, .operator,
   .typeParameter]

/-- The code of a kind; the first is one. -/
def code (k : SymbolKind) : Nat := k.ctorIdx + 1

/-- The name of a kind on display. -/
def label : SymbolKind → String
  | .file => "File"
  | .moduleUnit => "Module"
  | .nameScope => "Namespace"
  | .package => "Package"
  | .classType => "Class"
  | .method => "Method"
  | .property => "Property"
  | .field => "Field"
  | .constructor => "Constructor"
  | .enum => "Enum"
  | .interface => "Interface"
  | .function => "Function"
  | .variable => "Variable"
  | .constant => "Constant"
  | .string => "String"
  | .number => "Number"
  | .boolean => "Boolean"
  | .array => "Array"
  | .object => "Object"
  | .key => "Key"
  | .null => "Null"
  | .enumMember => "EnumMember"
  | .struct => "Struct"
  | .event => "Event"
  | .operator => "Operator"
  | .typeParameter => "TypeParameter"

/-- The label of a kind that may be unknown. -/
def labelOf (k : Option SymbolKind) : String := (k.map label).getD "Unknown"

def ofCode? (n : Int) : Option SymbolKind := all.find? fun k => k.code == n

/-- Every kind is found by its code. -/
theorem ofCode?_code (k : SymbolKind) : ofCode? k.code = some k := by
  cases k <;> decide

/-- The kind that a value stands for: only an integer stands for one. -/
def ofJson? : Option Json → Option SymbolKind
  | some (.num (.int n)) => ofCode? n
  | _ => none

end SymbolKind

end SymbolTrees
