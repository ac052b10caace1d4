import SymbolTrees.Decimal.Shortest

/-!
How a floating-point number is written: the shortest digits that read back, laid out by a record of
decisions.
-/

namespace SymbolTrees.Decimal

/-- The decisions of a number format. -/
structure Layout where
  /-- Least exponent of the leading digit that is written positionally. -/
  plainFrom : Int
  /-- Exponents of the leading digit from here on are not written positionally. -/
  plainBelow : Int
  /-- Least number of digits of a written exponent. -/
  exponentWidth : Nat
  infinity : String
  undefined : String
deriving Repr, DecidableEq

/-- Numbers below `10 ^ 16` and from `10 ^ -4` on are written positionally, integral ones with a
zero after the point, and all others with a signed exponent of at least two digits. -/
def plainText : Layout := ⟨-4, 16, 2, "inf", "nan"⟩

def fill (count : Nat) : List Char := List.replicate count '0'

/-- A decimal number with the point after, inside or before its digits. -/
def positional (d : Scaled) : List Char :=
  let ds := Nat.toDigits 10 d.digits
  let before := (ds.length : Int) + d.exponent
  if 0 ≤ d.exponent then ds ++ fill d.exponent.toNat ++ ['.', '0']
  else if 0 < before then ds.take before.toNat ++ '.' :: ds.drop before.toNat
  else '0' :: '.' :: fill (-before).toNat ++ ds

/-- A decimal number with one digit before the point and an exponent. -/
def scientific (layout : Layout) (d : Scaled) : List Char :=
  let ds := Nat.toDigits 10 d.digits
  let e := d.exponent + ds.length - 1
  let es := Nat.toDigits 10 e.natAbs
  let fraction := if ds.length = 1 then [] else '.' :: ds.drop 1
  ds.take 1 ++ fraction ++ 'e' :: (if e < 0 then '-' else '+') ::
    fill (layout.exponentWidth - es.length) ++ es

def Layout.digits (layout : Layout) (d : Scaled) : List Char :=
  let lead := d.exponent + (Nat.toDigits 10 d.digits).length - 1
  if layout.plainFrom ≤ lead ∧ lead < layout.plainBelow then positional d
  else scientific layout d

/-- The text of a double. -/
def Layout.text (layout : Layout) (x : Float) : String :=
  if x.isNaN then layout.undefined
  else
    let sign := if x.toBits >>> 63 = 1 then "-" else ""
    if x.isInf then sign ++ layout.infinity
    else
      let value := Binary.ofBits x.toBits
      if value.mantissa = 0 then sign ++ "0.0"
      else sign ++ String.ofList (layout.digits value.shortest)

end SymbolTrees.Decimal
