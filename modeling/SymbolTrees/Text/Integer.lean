import SymbolTrees.Text.Basic
import SymbolTrees.Text.Blank

/-!
Integers as people type them: white space around, one sign, and digits of any script with single
underscores between them.
-/

namespace SymbolTrees.Text.Integer

/-- The code point of the zero of every script with decimal digits; the other nine follow it. -/
def digitZeros : List Nat :=
  [0x30, 0x660, 0x6F0, 0x7C0, 0x966, 0x9E6, 0xA66, 0xAE6, 0xB66, 0xBE6, 0xC66, 0xCE6, 0xD66,
   0xDE6, 0xE50, 0xED0, 0xF20, 0x1040, 0x1090, 0x17E0, 0x1810, 0x1946, 0x19D0, 0x1A80, 0x1A90,
   0x1B50, 0x1BB0, 0x1C40, 0x1C50, 0xA620, 0xA8D0, 0xA900, 0xA9D0, 0xA9F0, 0xAA50, 0xABF0,
   0xFF10, 0x104A0, 0x10D30, 0x11066, 0x110F0, 0x11136, 0x111D0, 0x112F0, 0x11450, 0x114D0,
   0x11650, 0x116C0, 0x11730, 0x118E0, 0x11950, 0x11C50, 0x11D50, 0x11DA0, 0x16A60, 0x16AC0,
   0x16B50, 0x1D7CE, 0x1D7D8, 0x1D7E2, 0x1D7EC, 0x1D7F6, 0x1E140, 0x1E2F0, 0x1E950, 0x1FBF0]

/-- The value of a decimal digit of any script. -/
def digit? (c : Char) : Option Nat :=
  (digitZeros.find? fun z => z ≤ c.toNat && c.toNat ≤ z + 9).map (c.toNat - ·)

/-- White space around a number: outside ASCII every blank, inside it only the six layout
characters. -/
def isMargin (c : Char) : Bool :=
  if c.toNat < 128 then c == ' ' || (0x09 ≤ c.toNat && c.toNat ≤ 0x0D) else isBlank c

/-- The values of the digits, where single underscores may stand between two of them. -/
def digits? : List Char → Option (List Nat)
  | [] => none
  | [c] => (digit? c).map ([·])
  | c :: '_' :: rest => return (← digit? c) :: (← digits? rest)
  | c :: rest => return (← digit? c) :: (← digits? rest)

/-- The number that a list of decimal digits writes, the leading digit first. -/
def ofDigits (ds : List Nat) : Nat := ds.foldl (fun n d => 10 * n + d) 0

/-- The number of digits up to which integers are read and written. The integers of JSON values come
from JSON text and keep to it. Only numbers that are reckoned or handed over can be longer: those of
lines, rows and handles. -/
def maxDigits : Nat := 4300

def natural? (s : List Char) : Option Nat := do
  let ds ← digits? s
  if ds.length ≤ maxDigits then some (ofDigits ds) else none

/-- The integer that a text writes. -/
def ofText? (s : Text) : Option Int :=
  match trim isMargin s.chars with
  | '+' :: rest => (natural? rest).map Int.ofNat
  | '-' :: rest => (natural? rest).map fun n => -Int.ofNat n
  | rest => (natural? rest).map Int.ofNat

/-- The text of an integer; one that is too long has none. -/
def text? (n : Int) : Option String :=
  if (toString n.natAbs).length ≤ maxDigits then some (toString n) else none

end SymbolTrees.Text.Integer
