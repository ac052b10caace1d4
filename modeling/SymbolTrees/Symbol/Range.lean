import SymbolTrees.Json.Display

/-!
Positions, ranges and locations in documents. Lines and characters count from zero.
-/

namespace SymbolTrees

structure Position where
  line : Int
  character : Int
deriving Repr, DecidableEq, Inhabited

namespace Position

/-- The order of the text: by line, then by character. -/
def lt (a b : Position) : Bool :=
  a.line < b.line || (a.line == b.line && a.character < b.character)

def le (a b : Position) : Bool := a.lt b || a == b

/-- A field read as an integer, zero where it is missing. -/
def coordinate (data : Json) (name : Text) : Except Malformed Int := do
  match ← data.field? name with
  | none => pure 0
  | some v => v.toInt

def ofJson (data : Json) : Except Malformed Position :=
  return { line := ← coordinate data "line", character := ← coordinate data "character" }

def toJson (p : Position) : Json :=
  .obj [("line", .ofInt p.line), ("character", .ofInt p.character)]

end Position

/-- The text from one position up to another. -/
structure Range where
  start : Position
  stop : Position
deriving Repr, DecidableEq, Inhabited

namespace Range

/-- Whether a range lies entirely inside another. -/
def contains (outer inner : Range) : Bool :=
  outer.start.le inner.start && inner.stop.le outer.stop

/-- A range as servers send it; what is missing is zero. -/
def ofJson (data : Json) : Except Malformed Range :=
  return { start := ← Position.ofJson (← data.part "start")
           stop := ← Position.ofJson (← data.part "end") }

def toJson (r : Range) : Json :=
  .obj [("start", r.start.toJson), ("end", r.stop.toJson)]

/-- The range of a part of an object. -/
def ofPart (data : Json) (name : Text) : Except Malformed Range := do
  ofJson (← data.part name)

/-- The range of the name inside a declaration: the declaration's own where none is given. -/
def selectionOf (data : Json) (range : Range) : Except Malformed Range := do
  match Json.present? (← data.field? "selectionRange") with
  | some selection => ofJson selection
  | none => pure range

end Range

/-- A range in the document of a URI. -/
structure Location where
  uri : Text
  range : Range
deriving Repr, DecidableEq, Inhabited

namespace Json

/-- A field as a text, empty where it is missing. -/
def labelField (data : Json) (name : Text) : Except Malformed Text :=
  return ((← data.field? name).map label).getD []

/-- A field that counts only if it is a text. -/
def textField? (data : Json) (name : Text) : Except Malformed (Option Text) :=
  return (← data.field? name).bind text?

end Json

def Location.ofJson (data : Json) : Except Malformed Location :=
  return { uri := ← data.labelField "uri", range := ← Range.ofPart data "range" }

end SymbolTrees
