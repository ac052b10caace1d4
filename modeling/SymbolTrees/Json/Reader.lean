import SymbolTrees.Json.Basic
import SymbolTrees.Text.Integer

/-!
Reading JSON text. Beside the standard grammar `NaN`, `Infinity` and `-Infinity` are numbers. A
number with a fraction or an exponent is a floating-point value, any other an integer. Values may be
nested to any depth: the limit that an interpreter sets to the depth of its calls is left out.
-/

namespace SymbolTrees.Json.Reader

/-- What is left of the text after the white space in front. -/
def skip (s : Text) : Text :=
  s.dropWhile fun g => [' ', '\t', '\n', '\r'].contains g.toChar

/-- The text after a fixed beginning. -/
def after? : Text → Text → Option Text
  | [], s => some s
  | c :: cs, d :: s => if c == d then after? cs s else none
  | _ :: _, [] => none

def hexDigit? (c : Char) : Option Nat :=
  if c.isDigit then some (c.toNat - '0'.toNat)
  else if 'a' ≤ c ∧ c ≤ 'f' then some (c.toNat - 'a'.toNat + 10)
  else if 'A' ≤ c ∧ c ≤ 'F' then some (c.toNat - 'A'.toNat + 10)
  else none

/-- A 16-bit unit, as four hexadecimal digits. -/
def unit? : Text → Option (Nat × Text)
  | .char a :: .char b :: .char c :: .char d :: rest => do
    let value := (← hexDigit? a) * 4096 + (← hexDigit? b) * 256 + (← hexDigit? c) * 16 +
      (← hexDigit? d)
    pure (value, rest)
  | _ => none

/-- The low half of a surrogate pair. -/
def lowHalf? : Text → Option (Nat × Text)
  | .char '\\' :: .char 'u' :: s => do
    let (low, rest) ← unit? s
    if 0xDC00 ≤ low ∧ low < 0xE000 then some (low, rest) else none
  | _ => none

/-- What a unit stands for and what follows it; the two halves of a surrogate pair stand for one
character. -/
def glyph (unit : Nat) (rest : Text) : Glyph × Text :=
  let low := if 0xD800 ≤ unit ∧ unit < 0xDC00 then lowHalf? rest else none
  match low with
  | some (low, rest) => (.ofCode (0x10000 + (unit - 0xD800) * 0x400 + (low - 0xDC00)), rest)
  | none => (.ofCode unit, rest)

def plainEscape? : Char → Option Char
  | '"' => some '"'
  | '\\' => some '\\'
  | '/' => some '/'
  | 'b' => some '\x08'
  | 'f' => some '\x0C'
  | 'n' => some '\n'
  | 'r' => some '\r'
  | 't' => some '\t'
  | _ => none

/-- One place of a text, written as itself or as an escape; not the closing quote. -/
def oneGlyph? : Text → Option (Glyph × Text)
  | .char '\\' :: .char 'u' :: s => (unit? s).map fun (unit, rest) => glyph unit rest
  | .char '\\' :: .char c :: rest => (plainEscape? c).map (.char ·, rest)
  | .char '"' :: _ | .char '\\' :: _ | [] => none
  | g :: rest => if g.code < 0x20 then none else some (g, rest)

/-- The rest of a text after its opening quote; the fuel is the length of what is left. -/
def text? : Nat → Text → Text → Option (Text × Text)
  | _, acc, .char '"' :: rest => some (acc.reverse, rest)
  | fuel + 1, acc, s => do
    let (g, rest) ← oneGlyph? s
    text? fuel (g :: acc) rest
  | 0, _, _ => none

def isDigit (g : Glyph) : Bool := g.toChar.isDigit

def digitsOf (s : Text) : List Nat := s.map fun g => g.code - '0'.toNat

/-- The double nearest to `digits * 10 ^ exponent`. Far outside the range the digits do not
matter. -/
def decimal (digits : List Nat) (exponent : Int) : Float :=
  let ds := digits.dropWhile (· == 0)
  let m := Text.Integer.ofDigits ds
  if ds.isEmpty then 0
  else if 400 < exponent + ds.length then 1 / 0
  else if exponent + ds.length < -400 then 0
  else Float.ofScientific m (exponent < 0) exponent.natAbs

/-- The digits after a point, if there is one with a digit after it. -/
def fraction (s : Text) : Text × Text :=
  match s with
  | .char '.' :: rest =>
    let ds := rest.takeWhile isDigit
    if ds.isEmpty then ([], s) else (ds, rest.dropWhile isDigit)
  | _ => ([], s)

/-- The exponent, if there is one with a digit in it. -/
def exponent? (s : Text) : Option (Int × Text) :=
  match s with
  | .char e :: rest =>
    if e == 'e' || e == 'E' then
      let (negative, rest) := match rest with
        | .char '-' :: r => (true, r)
        | .char '+' :: r => (false, r)
        | _ => (false, rest)
      let ds := rest.takeWhile isDigit
      let n : Int := Text.Integer.ofDigits (digitsOf ds)
      if ds.isEmpty then none
      else some (if negative then -n else n, rest.dropWhile isDigit)
    else none
  | _ => none

/-- The digits before the point: a zero alone, or digits that do not start with one. -/
def whole? (s : Text) : Option (Text × Text) :=
  match s with
  | .char '0' :: rest => some ([.char '0'], rest)
  | _ =>
    let ds := s.takeWhile isDigit
    if ds.isEmpty then none else some (ds, s.dropWhile isDigit)

/-- A number without its sign. -/
def unsigned? (s : Text) : Option (Number × Text) := do
  let (ds, s) ← whole? s
  let (fs, s) := fraction s
  match exponent? s, fs with
  | none, [] =>
    if Text.Integer.maxDigits < ds.length then none
    else some (.int (Text.Integer.ofDigits (digitsOf ds)), s)
  | none, _ => some (.float (decimal (digitsOf (ds ++ fs)) (-fs.length)), s)
  | some (e, s), _ => some (.float (decimal (digitsOf (ds ++ fs)) (e - fs.length)), s)

def negate : Number → Number
  | .int n => .int (-n)
  | .float x => .float (-x)

def number? : Text → Option (Number × Text)
  | .char '-' :: s => (unsigned? s).map fun (n, rest) => (negate n, rest)
  | s => unsigned? s

/-- The values that are written as words. -/
def words : List (String × Json) :=
  [("null", .null), ("true", .bool true), ("false", .bool false), ("NaN", .num (.float (0 / 0))),
   ("Infinity", .num (.float (1 / 0))), ("-Infinity", .num (.float (-1 / 0)))]

def word? (s : Text) : Option (Json × Text) :=
  words.findSome? fun (name, value) => (after? name s).map (value, ·)

mutual

/-- One value; the fuel bounds the number of values and separators still to read. -/
def value? : Nat → Text → Option (Json × Text)
  | 0, _ => none
  | fuel + 1, s =>
    match s with
    | .char '"' :: rest => (text? rest.length [] rest).map fun (t, rest) => (.str t, rest)
    | .char '[' :: rest =>
      match skip rest with
      | .char ']' :: rest => some (.arr [], rest)
      | rest => (entries? fuel [] rest).map fun (vs, rest) => (.arr vs, rest)
    | .char '\x7b' :: rest =>
      match skip rest with
      | .char '\x7d' :: rest => some (.obj [], rest)
      | rest => (fields? fuel [] rest).map fun (fs, rest) => (.obj fs, rest)
    | _ => (word? s).or ((number? s).map fun (n, rest) => (.num n, rest))

/-- The entries up to the closing bracket. -/
def entries? : Nat → List Json → Text → Option (List Json × Text)
  | 0, _, _ => none
  | fuel + 1, acc, s => do
    let (v, s) ← value? fuel s
    match skip s with
    | .char ',' :: rest => entries? fuel (v :: acc) (skip rest)
    | .char ']' :: rest => some ((v :: acc).reverse, rest)
    | _ => none

/-- The fields up to the closing brace; of two fields of one name the later value counts. -/
def fields? : Nat → Fields → Text → Option (Fields × Text)
  | 0, _, _ => none
  | fuel + 1, acc, s =>
    match s with
    | .char '"' :: s => do
      let (name, s) ← text? s.length [] s
      match skip s with
      | .char ':' :: s =>
        let (v, s) ← value? fuel (skip s)
        match skip s with
        | .char ',' :: rest => fields? fuel (acc.put name v) (skip rest)
        | .char '\x7d' :: rest => some (acc.put name v, rest)
        | _ => none
      | _ => none
    | _ => none

end

end Reader

/-- The value that a text writes, with nothing but white space around it. -/
def ofText? (s : Text) : Option Json := do
  let s := Reader.skip s
  let (v, rest) ← Reader.value? (s.length + 1) s
  if (Reader.skip rest).isEmpty then some v else none

end SymbolTrees.Json
