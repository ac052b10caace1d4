import SymbolTrees.Decimal.Layout
import SymbolTrees.Malformed

/-!
Numbers as data formats have them: integers of any size beside floating-point values. A mixed
comparison is exact; a mixed sum is a floating-point value.
-/

namespace SymbolTrees

inductive Number where
  | int (n : Int)
  | float (x : Float)

namespace Number

/-- A finite double as `m * 2 ^ e`. -/
def split (x : Float) : Int × Int :=
  let b := Decimal.Binary.ofBits x.toBits
  (if x.toBits >>> 63 = 1 then -b.mantissa else b.mantissa, b.exponent)

/-- The nearest double, if it is finite. -/
def floatOfInt (n : Int) : Except Malformed Float :=
  if Nat.pow 2 1025 ≤ n.natAbs then throw .tooLarge
  else if (Float.ofInt n).isInf then throw .tooLarge
  else pure (Float.ofInt n)

/-- The number without its fraction. -/
def toInt : Number → Except Malformed Int
  | int n => pure n
  | float x =>
    if x.isNaN then throw .notAnInteger
    else if x.isInf then throw .tooLarge
    else
      let (m, e) := split x
      pure (if 0 ≤ e then m * Nat.pow 2 e.toNat else m.tdiv (Nat.pow 2 (-e).toNat))

def toFloat : Number → Except Malformed Float
  | int n => floatOfInt n
  | float x => pure x

def isZero : Number → Bool
  | int n => n == 0
  | float x => x == 0

def add : Number → Number → Except Malformed Number
  | int a, int b => pure (int (a + b))
  | a, b => return float ((← a.toFloat) + (← b.toFloat))

/-- The order of an integer and a double that is a number. -/
def compareInt (n : Int) (x : Float) : Ordering :=
  if x.isInf then (if 0 < x then .lt else .gt)
  else
    let (m, e) := split x
    compare (n * Nat.pow 2 (-e).toNat) (m * Nat.pow 2 e.toNat)

/-- Whether one number is less than another; an undefined one never is. -/
def lt : Number → Number → Bool
  | int a, int b => a < b
  | float x, float y => x < y
  | int n, float x => !x.isNaN && compareInt n x == .lt
  | float x, int n => !x.isNaN && compareInt n x == .gt

def text : Number → String
  | int n => toString n
  | float x => Decimal.plainText.text x

end Number

end SymbolTrees
