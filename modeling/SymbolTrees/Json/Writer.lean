import SymbolTrees.Json.Basic

/-!
Writing JSON text over several lines, each level indented by two blanks, with all characters
outside ASCII escaped.
-/

namespace SymbolTrees.Json

namespace Writer

/-- A 16-bit unit as an escape. -/
def unit (n : Nat) : List Char :=
  let ds := Nat.toDigits 16 n
  '\\' :: 'u' :: List.replicate (4 - ds.length) '0' ++ ds

/-- A character above the first plane is written as two units. -/
def units (n : Nat) : List Char :=
  if n < 0x10000 then unit n
  else unit (0xD800 + (n - 0x10000) / 0x400) ++ unit (0xDC00 + (n - 0x10000) % 0x400)

def encodeChar (c : Char) : List Char :=
  if c == '"' || c == '\\' then ['\\', c]
  else if c == '\n' then ['\\', 'n']
  else if c == '\r' then ['\\', 'r']
  else if c == '\t' then ['\\', 't']
  else if c == '\x0C' then ['\\', 'f']
  else if c == '\x08' then ['\\', 'b']
  else if ' ' ≤ c ∧ c ≤ '~' then [c]
  else units c.toNat

/-- Half of a surrogate pair is one unit. -/
def encodeGlyph : Glyph → List Char
  | .char c => encodeChar c
  | .half n => unit (0xD800 + n.val)

def text (s : Text) : String :=
  String.ofList ('"' :: s.flatMap encodeGlyph ++ ['"'])

/-- Numbers have the plain layout, with the names that the reader knows. -/
def numbers : Decimal.Layout :=
  { Decimal.plainText with infinity := "Infinity", undefined := "NaN" }

def number : Number → String
  | .int n => toString n
  | .float x => numbers.text x

/-- The start of a line on a level. -/
def newline (level : Nat) : String := "\n" ++ String.ofList (List.replicate (2 * level) ' ')

mutual

def value (level : Nat) : Json → String
  | null => "null"
  | bool b => if b then "true" else "false"
  | num n => number n
  | str s => text s
  | arr [] => "[]"
  | arr (v :: vs) =>
    "[" ++ newline (level + 1) ++ value (level + 1) v ++ entries (level + 1) vs ++
      newline level ++ "]"
  | obj [] => "\x7b\x7d"
  | obj ((k, v) :: fs) =>
    "\x7b" ++ newline (level + 1) ++ text k ++ ": " ++ value (level + 1) v ++
      fields (level + 1) fs ++ newline level ++ "\x7d"

def entries (level : Nat) : List Json → String
  | [] => ""
  | v :: vs => "," ++ newline level ++ value level v ++ entries level vs

def fields (level : Nat) : List (Text × Json) → String
  | [] => ""
  | (k, v) :: fs => "," ++ newline level ++ text k ++ ": " ++ value level v ++ fields level fs

end

end Writer

/-- The text of a value. -/
def toText (v : Json) : String := Writer.value 0 v

end SymbolTrees.Json
