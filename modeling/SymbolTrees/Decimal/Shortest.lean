/-!
The shortest decimal that reads back to a binary floating-point value: of the decimals that round
to the value, one with the fewest digits, and of those the nearest. All comparisons are between
natural numbers, so nothing is rounded on the way.
-/

namespace SymbolTrees.Decimal

/-- A finite value `mantissa * 2 ^ exponent`; `narrow` says that the gap to the value below is half
the gap to the value above. -/
structure Binary where
  mantissa : Nat
  exponent : Int
  narrow : Bool
deriving Repr, DecidableEq

/-- The value of the bits of a finite double, its sign left out. -/
def Binary.ofBits (bits : UInt64) : Binary :=
  let e := ((bits >>> 52) &&& 0x7FF).toNat
  let f := (bits &&& 0xFFFFFFFFFFFFF).toNat
  if e = 0 then ⟨f, -1074, false⟩ else ⟨Nat.pow 2 52 + f, (e : Int) - 1075, f = 0 ∧ 1 < e⟩

/-- The number `digits * 10 ^ exponent`. -/
structure Scaled where
  digits : Nat
  exponent : Int
deriving Repr, DecidableEq

/-- The order of `a * 10 ^ i` and `b * 2 ^ j`. -/
def compareScaled (a : Nat) (i : Int) (b : Nat) (j : Int) : Ordering :=
  compare (a * Nat.pow 10 i.toNat * Nat.pow 2 (-j).toNat)
    (b * Nat.pow 2 j.toNat * Nat.pow 10 (-i).toNat)

/-- Whether a decimal rounds to the value: it lies between the middles of the gaps below and above,
and on one of them only where the mantissa is even. -/
def Binary.covers (x : Binary) (d : Scaled) : Bool :=
  let below := compareScaled d.digits d.exponent (4 * x.mantissa - if x.narrow then 1 else 2)
    (x.exponent - 2)
  let above := compareScaled d.digits d.exponent (4 * x.mantissa + 2) (x.exponent - 2)
  if x.mantissa % 2 = 0 then below != .lt && above != .gt else below == .gt && above == .lt

/-- The greatest multiple of `10 ^ grid` that is not above the value, as a count of that unit. -/
def Binary.floorOn (x : Binary) (grid : Int) : Nat :=
  x.mantissa * Nat.pow 2 x.exponent.toNat * Nat.pow 10 (-grid).toNat /
    (Nat.pow 2 (-x.exponent).toNat * Nat.pow 10 grid.toNat)

/-- The neighbour of the value on the grid that rounds to it: of two the nearer, and at equal
distance the even one. -/
def Binary.onGrid? (x : Binary) (grid : Int) : Option Scaled :=
  let lower : Scaled := ⟨x.floorOn grid, grid⟩
  let upper : Scaled := ⟨lower.digits + 1, grid⟩
  match x.covers lower, x.covers upper with
  | false, false => none
  | true, false => some lower
  | false, true => some upper
  | true, true =>
    match compareScaled (lower.digits + upper.digits) grid x.mantissa (x.exponent + 1) with
    | .gt => some lower
    | .lt => some upper
    | .eq => some (if lower.digits % 2 = 0 then lower else upper)

/-- An exponent of ten that reaches above the value. -/
def Binary.top (x : Binary) : Int :=
  (x.exponent + x.mantissa.log2 + 1) * 30103 / 100000 + 2

/-- The value itself as a decimal. -/
def Binary.exact (x : Binary) : Scaled :=
  if 0 ≤ x.exponent then ⟨x.mantissa * Nat.pow 2 x.exponent.toNat, 0⟩
  else ⟨x.mantissa * Nat.pow 5 (-x.exponent).toNat, x.exponent⟩

/-- The first hit on ever finer grids; seventeen digits are enough for every double. -/
def Binary.shortest (x : Binary) : Scaled :=
  ((List.range 24).findSome? fun (step : Nat) => x.onGrid? (x.top - step)).getD x.exact

end SymbolTrees.Decimal
