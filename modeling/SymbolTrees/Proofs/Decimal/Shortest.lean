import SymbolTrees.Decimal.Shortest
import SymbolTrees.Proofs.Decimal.Nearest

/-!
# The shortest digits read back

Whatever grid the digits of a double are found on, they lie around it: a hit is taken only if it
does, and where no grid has one the digits are those of the double itself.

Main statement: `Decimal.Binary.covers_shortest`.
-/

namespace SymbolTrees.Decimal

/-- The number that a decimal stands for. -/
def Scaled.value (d : Scaled) : ℚ := d.digits * 10 ^ d.exponent

/-- The order of two scaled numbers is that of their values. -/
theorem compareScaled_eq (a : ℕ) (i : ℤ) (b : ℕ) (j : ℤ) :
    compareScaled a i b j = compare ((a : ℚ) * 10 ^ i) (b * 2 ^ j) := by
  have whole {n : ℚ} (hn : n ≠ 0) (k : ℤ) : n ^ k * n ^ (-k).toNat = n ^ k.toNat := by
    rw [← zpow_natCast, ← zpow_add₀ hn, ← zpow_natCast]
    congr 1
    omega
  refine Rounding.compare_natCast (u := 10 ^ (-i).toNat * 2 ^ (-j).toNat) (by positivity) ?_ ?_
  · calc (a : ℚ) * 10 ^ i * (10 ^ (-i).toNat * 2 ^ (-j).toNat) =
          a * (10 ^ i * 10 ^ (-i).toNat) * 2 ^ (-j).toNat := by ring
      _ = ((a * Nat.pow 10 i.toNat * Nat.pow 2 (-j).toNat : ℕ) : ℚ) := by
        rw [whole (by norm_num), Nat.pow_eq, Nat.pow_eq]
        push_cast
        rfl
  · calc (b : ℚ) * 2 ^ j * (10 ^ (-i).toNat * 2 ^ (-j).toNat) =
          b * (2 ^ j * 2 ^ (-j).toNat) * 10 ^ (-i).toNat := by ring
      _ = ((b * Nat.pow 2 j.toNat * Nat.pow 10 (-i).toNat : ℕ) : ℚ) := by
        rw [whole two_ne_zero, Nat.pow_eq, Nat.pow_eq]
        push_cast
        rfl

namespace Binary

variable {x : Binary}

/-- A decimal is compared with quarters of a unit. -/
theorem compare_quarters (x : Binary) (n : ℕ) (d : Scaled) :
    compareScaled d.digits d.exponent n (x.exponent - 2) =
      compare (d.value / 2 ^ x.exponent) (n / 4 : ℚ) := by
  have unit : (0 : ℚ) < 2 ^ x.exponent := by positivity
  have quarters : (n : ℚ) * 2 ^ (x.exponent - 2) = n / 4 * 2 ^ x.exponent := by
    rw [zpow_sub₀ two_ne_zero]
    ring
  rw [compareScaled_eq, quarters]
  show compare d.value _ = _
  rcases lt_trichotomy d.value (n / 4 * 2 ^ x.exponent) with lt | eq | gt
  · rw [compare_lt_iff_lt.2 lt, compare_lt_iff_lt.2 ((div_lt_iff₀ unit).2 lt)]
  · rw [compare_eq_iff_eq.2 eq, compare_eq_iff_eq.2 ((div_eq_iff unit.ne').2 eq)]
  · rw [compare_gt_iff_gt.2 gt, compare_gt_iff_gt.2 ((lt_div_iff₀ unit).2 gt)]

/-- A decimal is taken for the double exactly if it lies around it. -/
theorem covers_iff (positive : 0 < x.mantissa) (d : Scaled) :
    x.covers d = true ↔ x.Covers d.value := by
  have lower : ((4 * x.mantissa - (if x.narrow then 1 else 2) : ℕ) : ℚ) / 4 =
      x.mantissa - x.reach := by
    unfold reach
    split
    · rw [Nat.cast_sub (by omega)]
      push_cast
      ring
    · rw [Nat.cast_sub (by omega)]
      push_cast
      ring
  have upper : ((4 * x.mantissa + 2 : ℕ) : ℚ) / 4 = x.mantissa + 1 / 2 := by
    push_cast
    ring
  unfold covers
  simp only [compare_quarters, lower, upper]
  split
  next even =>
    rw [Bool.and_eq_true, bne_iff_ne, bne_iff_ne, compare_ge_iff_ge, compare_le_iff_le]
    exact ⟨fun h => ⟨h.1, h.2, fun odd => by omega⟩, fun h => ⟨h.lower, h.upper⟩⟩
  next odd =>
    rw [Bool.and_eq_true, beq_iff_eq, beq_iff_eq, compare_gt_iff_gt, compare_lt_iff_lt]
    exact ⟨fun h => ⟨h.1.le, h.2.le, fun _ => h⟩, fun h => h.odd (by omega)⟩

theorem covers_of_onGrid {grid : ℤ} {d : Scaled} (hit : x.onGrid? grid = some d) :
    x.covers d = true := by
  unfold onGrid? at hit
  simp only at hit
  split at hit
  · cases hit
  next lower _ => cases hit; exact lower
  next upper => cases hit; exact upper
  next lower upper =>
    split at hit
    · cases hit; exact lower
    · cases hit; exact upper
    · split at hit
      · cases hit; exact lower
      · cases hit; exact upper

theorem value_exact (x : Binary) : x.exact.value = x.mantissa * 2 ^ x.exponent := by
  unfold exact Scaled.value
  split
  next nonneg =>
    obtain ⟨k, hk⟩ := Int.eq_ofNat_of_zero_le nonneg
    rw [hk, Int.toNat_natCast, zpow_natCast, zpow_zero, mul_one, Nat.pow_eq]
    push_cast
    rfl
  next negative =>
    obtain ⟨k, hk⟩ : ∃ k : ℕ, x.exponent = -k := ⟨(-x.exponent).toNat, by omega⟩
    have ten : (10 : ℚ) ^ k = 5 ^ k * 2 ^ k := by rw [← mul_pow]; norm_num
    rw [hk, neg_neg, Int.toNat_natCast, zpow_neg, zpow_neg, zpow_natCast, zpow_natCast,
      Nat.pow_eq, ten]
    push_cast
    field_simp

/-- **The shortest digits** lie around the double. -/
theorem covers_shortest (positive : 0 < x.mantissa) : x.Covers x.shortest.value := by
  unfold shortest
  cases search : (List.range 24).findSome? fun (step : ℕ) => x.onGrid? (x.top - step) with
  | none =>
    rw [Option.getD_none, value_exact]
    exact x.covers_self
  | some d =>
    obtain ⟨step, -, hit⟩ := List.exists_of_findSome?_eq_some search
    exact (covers_iff positive d).1 (covers_of_onGrid hit)

end Binary

end SymbolTrees.Decimal
