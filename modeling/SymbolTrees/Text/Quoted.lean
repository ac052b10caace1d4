import SymbolTrees.Text.Basic
import SymbolTrees.Text.Printable

/-!
Texts in quotes, for messages: a mark that does not occur in the text if there is one, and escapes
for the mark, the backslash and all that would not show.
-/

namespace SymbolTrees.Text.Quoted

/-- The single mark, or the double one where only the single one occurs in the text. -/
def mark (s : Text) : Char :=
  if s.contains (.char '\'') && !s.contains (.char '"') then '"' else '\''

/-- A number in lower-case hexadecimal, filled with zeros to a width. -/
def hex (width n : Nat) : List Char :=
  let ds := Nat.toDigits 16 n
  List.replicate (width - ds.length) '0' ++ ds

/-- A hidden character is escaped by its code point, in the shortest of the three forms. -/
def escapeCode (n : Nat) : List Char :=
  if n < 0x100 then '\\' :: 'x' :: hex 2 n
  else if n < 0x10000 then '\\' :: 'u' :: hex 4 n
  else '\\' :: 'U' :: hex 8 n

def encodeChar (quote c : Char) : List Char :=
  if c == quote || c == '\\' then ['\\', c]
  else if c == '\t' then ['\\', 't']
  else if c == '\n' then ['\\', 'n']
  else if c == '\r' then ['\\', 'r']
  else if isPrintable c then [c]
  else escapeCode c.toNat

/-- Half of a surrogate pair never shows. -/
def encodeGlyph (quote : Char) : Glyph → List Char
  | .char c => encodeChar quote c
  | .half n => escapeCode (0xD800 + n.val)

end Quoted

/-- A text in quotes. -/
def quoted (s : Text) : String :=
  let m := Quoted.mark s
  String.ofList (m :: s.flatMap (Quoted.encodeGlyph m) ++ [m])

end SymbolTrees.Text
