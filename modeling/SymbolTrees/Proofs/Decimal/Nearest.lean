import SymbolTrees.Proofs.Rounding

/-!
# What is rounded to a given double

The quotient and the product of two mantissas are known by their integral part and by two bits that
tell where the rest lies: at zero, below, at or above one half. That is enough to round them, and
it stays true as places are cut off. So a value that lies between the middles of the gaps below and
above a double, and on one of them only where the mantissa is even, is rounded to that double
(`Decimal.Binary.Covers.roundWithAccuracy`). The one value that is rounded twice lies just below a
power of two, where the gap is half as wide as above it.

Main statements: `Decimal.Binary.Covers.mul` and `Decimal.Binary.Covers.div`.
-/

open Float.Model Float.Model.UnpackedFloat

namespace SymbolTrees

namespace Rounding

/-- Natural numbers are compared like the rational numbers that come to them in a common unit. -/
theorem compare_natCast {a b : ℕ} {p q u : ℚ} (positive : 0 < u) (hp : p * u = a)
    (hq : q * u = b) : compare a b = compare p q := by
  rcases lt_trichotomy p q with lt | rfl | gt
  · have : (a : ℚ) < b := hp ▸ hq ▸ mul_lt_mul_of_pos_right lt positive
    rw [compare_lt_iff_lt.2 lt, compare_lt_iff_lt.2 (by exact_mod_cast this)]
  · have : (a : ℚ) = b := hp ▸ hq
    rw [compare_eq_iff_eq.2 rfl, compare_eq_iff_eq.2 (by exact_mod_cast this)]
  · have : (b : ℚ) < a := hp ▸ hq ▸ mul_lt_mul_of_pos_right gt positive
    rw [compare_gt_iff_gt.2 gt, compare_gt_iff_gt.2 (by exact_mod_cast this)]

/-! ### Mantissas with residual bits -/

/-- The mantissa is the integral part of the value; the round bit tells whether the rest is at least
one half, the sticky bit whether it is neither zero nor one half. -/
structure Describes (em : ExtendedMantissa) (y : ℚ) : Prop where
  lower : (em.mantissa : ℚ) ≤ y
  upper : y < em.mantissa + 1
  half : em.roundBit = true ↔ (em.mantissa : ℚ) + 1 / 2 ≤ y
  rest : em.stickyBit = true ↔ y ≠ em.mantissa ∧ y ≠ (em.mantissa : ℚ) + 1 / 2

variable {em : ExtendedMantissa} {y : ℚ}

theorem describes_exact (m : ℕ) : Describes (.ofMantissaAndAccuracy m .exact) m where
  lower := le_refl _
  upper := lt_add_one _
  half := by
    refine iff_of_false Bool.false_ne_true (not_le.2 ?_)
    show (m : ℚ) < m + 1 / 2
    norm_num
  rest := iff_of_false Bool.false_ne_true fun h => h.1 rfl

theorem describes_inexact (m : ℕ) {rest : ℚ} (positive : 0 < rest) (below : rest < 1) :
    Describes (.ofMantissaAndAccuracy m (.inexact (compare rest (1 / 2)))) (m + rest) := by
  cases order : compare rest (1 / 2) with
  | lt =>
    have short : rest < 1 / 2 := compare_lt_iff_lt.1 order
    refine ⟨le_add_of_nonneg_right positive.le, add_lt_add_right below _, ?_, ?_⟩
    · exact iff_of_false Bool.false_ne_true (not_le.2 (add_lt_add_right short _))
    · exact iff_of_true rfl
        ⟨fun h => positive.ne' (add_eq_left.1 h), fun h => short.ne (add_left_cancel h)⟩
  | eq =>
    obtain rfl : rest = 1 / 2 := compare_eq_iff_eq.1 order
    refine ⟨le_add_of_nonneg_right positive.le, add_lt_add_right below _, ?_, ?_⟩
    · exact iff_of_true rfl (le_refl _)
    · exact iff_of_false Bool.false_ne_true fun h => h.2 rfl
  | gt =>
    have long : 1 / 2 < rest := compare_gt_iff_gt.1 order
    refine ⟨le_add_of_nonneg_right positive.le, add_lt_add_right below _, ?_, ?_⟩
    · exact iff_of_true rfl (add_le_add_right long.le _)
    · exact iff_of_true rfl
        ⟨fun h => positive.ne' (add_eq_left.1 h), fun h => long.ne' (add_left_cancel h)⟩

/-- A quotient of integers by its integral part and the remainder. -/
theorem describes_quotient (m : ℕ) {n : ℕ} (positive : 0 < n) :
    Describes (.ofMantissaAndAccuracy (m / n) (accuracyOfFraction (m % n) n)) (m / n : ℚ) := by
  have unit : (0 : ℚ) < n := by exact_mod_cast positive
  have split : (m / n : ℚ) = (m / n : ℕ) + (m % n : ℕ) / n := by
    rw [div_eq_iff unit.ne', add_mul, div_mul_cancel₀ _ unit.ne']
    exact_mod_cast (Nat.div_add_mod' m n).symm
  have below : m % n < n := Nat.mod_lt m positive
  rw [split, accuracyOfFraction]
  generalize m / n = q
  generalize m % n = r at below
  by_cases exact : r = 0
  · rw [if_pos exact, exact, Nat.cast_zero, zero_div, add_zero]
    exact describes_exact q
  · have half : compare (2 * r) n = compare (r / n : ℚ) (1 / 2) :=
      compare_natCast (u := 2 * n) (by positivity) (by push_cast; field_simp) (by field_simp)
    rw [if_neg exact, half]
    refine describes_inexact q (div_pos ?_ unit) ((div_lt_one unit).2 (by exact_mod_cast below))
    exact_mod_cast Nat.pos_of_ne_zero exact

theorem Describes.shiftRightOne (h : Describes em y) : Describes em.shiftRightOne (y / 2) := by
  obtain ⟨m, r, t⟩ := em
  obtain ⟨lower, upper, half, rest⟩ := h
  simp only at lower upper half rest
  have split : (m : ℚ) = 2 * (m / 2 : ℕ) + (m % 2 : ℕ) := by
    exact_mod_cast (Nat.div_add_mod m 2).symm
  have inexact : (r || t) = true ↔ y ≠ m := by
    rw [Bool.or_eq_true, half, rest]
    constructor
    · rintro (above | ⟨other, -⟩) rfl
      · linarith
      · exact other rfl
    · intro other
      by_cases middle : y = m + 1 / 2
      · exact .inl (le_of_eq middle.symm)
      · exact .inr ⟨other, middle⟩
  rcases Nat.mod_two_eq_zero_or_one m with even | odd
  · rw [even, Nat.cast_zero, add_zero] at split
    constructor
    · show ((m / 2 : ℕ) : ℚ) ≤ y / 2
      linarith
    · show y / 2 < ((m / 2 : ℕ) : ℚ) + 1
      linarith
    · show (m % 2 != 0) = true ↔ ((m / 2 : ℕ) : ℚ) + 1 / 2 ≤ y / 2
      rw [even]
      exact iff_of_false Bool.false_ne_true (by linarith)
    · show (r || t) = true ↔ y / 2 ≠ ((m / 2 : ℕ) : ℚ) ∧ y / 2 ≠ ((m / 2 : ℕ) : ℚ) + 1 / 2
      rw [inexact]
      refine ⟨fun other => ⟨fun h => other ?_, fun h => ?_⟩, fun h e => h.1 ?_⟩ <;> linarith
  · rw [odd, Nat.cast_one] at split
    constructor
    · show ((m / 2 : ℕ) : ℚ) ≤ y / 2
      linarith
    · show y / 2 < ((m / 2 : ℕ) : ℚ) + 1
      linarith
    · show (m % 2 != 0) = true ↔ ((m / 2 : ℕ) : ℚ) + 1 / 2 ≤ y / 2
      rw [odd]
      exact iff_of_true rfl (by linarith)
    · show (r || t) = true ↔ y / 2 ≠ ((m / 2 : ℕ) : ℚ) ∧ y / 2 ≠ ((m / 2 : ℕ) : ℚ) + 1 / 2
      rw [inexact]
      refine ⟨fun other => ⟨fun h => ?_, fun h => other ?_⟩, fun h e => h.2 ?_⟩ <;> linarith

theorem Describes.shiftRight (h : Describes em y) (s : ℕ) : Describes (em >>> s) (y / 2 ^ s) := by
  induction s with
  | zero => simpa [HShiftRight.hShiftRight, Nat.repeat] using h
  | succ s ih =>
    have step : em >>> (s + 1) = (em >>> s).shiftRightOne := rfl
    rw [step, pow_succ, ← div_div]
    exact ih.shiftRightOne

/-- The value is at most one half away from the integer, and less than that if the integer is
odd. -/
structure RoundsTo (y : ℚ) (k : ℕ) : Prop where
  lower : (k : ℚ) - 1 / 2 ≤ y
  upper : y ≤ k + 1 / 2
  odd : k % 2 = 1 → (k : ℚ) - 1 / 2 < y ∧ y < k + 1 / 2

theorem Describes.roundedMantissa (h : Describes em y) {k : ℕ} (near : RoundsTo y k) :
    em.roundedMantissa = k := by
  obtain ⟨m, r, t⟩ := em
  obtain ⟨lower, upper, half, rest⟩ := h
  simp only at lower upper half rest
  have at_least : m ≤ k := by
    have : (m : ℚ) < k + 1 := by linarith [near.upper]
    exact Nat.lt_add_one_iff.1 (by exact_mod_cast this)
  have at_most : k ≤ m + 1 := by
    have : (k : ℚ) < m + 1 + 1 := by linarith [near.lower]
    exact Nat.lt_add_one_iff.1 (by exact_mod_cast this)
  rcases Nat.eq_or_lt_of_le at_least with below | above
  · subst below
    cases r with
    | false => cases t <;> rfl
    | true =>
      have middle : y = m + 1 / 2 := le_antisymm near.upper (half.1 rfl)
      have even : m % 2 = 0 := by
        by_contra odd
        exact absurd (near.odd (by omega)).2 (by rw [middle]; exact lt_irrefl _)
      cases t with
      | false =>
        show m + m % 2 = m
        rw [even, Nat.add_zero]
      | true => exact absurd middle (rest.1 rfl).2
  · obtain rfl : k = m + 1 := by omega
    have low := near.lower
    push_cast at low
    have up : (m : ℚ) + 1 / 2 ≤ y := by linarith
    cases r with
    | false => exact absurd (half.2 up) Bool.false_ne_true
    | true =>
      cases t with
      | true => rfl
      | false =>
        have middle : y = m + 1 / 2 := by
          by_contra other
          exact absurd (rest.2 ⟨by linarith, other⟩) Bool.false_ne_true
        have odd : m % 2 = 1 := by
          by_contra even
          have strict := (near.odd (by omega)).1
          push_cast at strict
          linarith
        show m + m % 2 = m + 1
        rw [odd]

theorem div_two_zpow (v : ℚ) (e n : ℤ) : v / 2 ^ e = v / 2 ^ n * 2 ^ (n - e) := by
  rw [zpow_sub₀ two_ne_zero, mul_div_assoc', div_mul_cancel₀ _ (zpow_ne_zero _ two_ne_zero)]

section Shift

variable {m : ℕ} {e target : ℤ} {accuracy : Accuracy} {v : ℚ}
  (h : Describes (.ofMantissaAndAccuracy m accuracy) (v / 2 ^ e))
include h

/-- What stands before the guard bit is the integral part. -/
theorem Describes.bounds : (m : ℚ) ≤ v / 2 ^ e ∧ v / 2 ^ e < m + 1 := by
  have integral : (ExtendedMantissa.ofMantissaAndAccuracy m accuracy).mantissa = m := by
    cases accuracy with
    | exact => rfl
    | inexact o => cases o <;> rfl
  have lower := h.lower
  have upper := h.upper
  rw [integral] at lower upper
  exact ⟨lower, upper⟩

/-- The exponent of a mantissa with enough places is not above one for which the value has at most
53 places. -/
theorem Describes.exponent_le (enough : e ≤ -1074 ∨ 2 ^ 52 ≤ m) (least : -1074 ≤ target)
    (high : v / 2 ^ target < 2 ^ 53) : e ≤ target := by
  have lower := h.bounds.1
  rcases enough with small | full
  · omega
  · by_contra beyond
    have : (2 : ℚ) ^ (target - e) ≤ 2 ^ (-1 : ℤ) := zpow_le_zpow_right₀ one_le_two (by omega)
    have full' : (2 : ℚ) ^ 52 ≤ m := by exact_mod_cast full
    have positive : (0 : ℚ) < 2 ^ (target - e) := by positivity
    rw [div_two_zpow v e target] at lower
    norm_num at this
    nlinarith

/-- With the exponent for which the value has 53 places, or with the least one, the mantissa has
that many places too many. -/
theorem Describes.max_log2_eq {s : ℕ} (least : -1074 ≤ e + s)
    (high : v / 2 ^ (e + (s : ℤ)) < 2 ^ 53)
    (low : 2 ^ 52 ≤ v / 2 ^ (e + (s : ℤ)) ∨ e + s = -1074) :
    max (m.log2 + e - 52) (-1074) = e + s := by
  obtain ⟨lower, upper⟩ := h.bounds
  have scaled : v / 2 ^ e = v / 2 ^ (e + (s : ℤ)) * 2 ^ s := by
    rw [div_two_zpow v e (e + s), add_sub_cancel_left, zpow_natCast]
  have under : m ≠ 0 → m.log2 < 53 + s := by
    intro positive
    rw [Nat.log2_lt positive]
    have : (m : ℚ) < 2 ^ (53 + s) := by
      calc (m : ℚ) ≤ v / 2 ^ (e + (s : ℤ)) * 2 ^ s := scaled ▸ lower
        _ < 2 ^ 53 * 2 ^ s := by gcongr
        _ = 2 ^ (53 + s) := (pow_add _ _ _).symm
    exact_mod_cast this
  rcases low with normal | least
  · have many : 2 ^ (52 + s) ≤ m := by
      have : (2 : ℚ) ^ (52 + s) < m + 1 := by
        calc (2 : ℚ) ^ (52 + s) = 2 ^ 52 * 2 ^ s := pow_add _ _ _
          _ ≤ v / 2 ^ (e + (s : ℤ)) * 2 ^ s := by gcongr
          _ < m + 1 := scaled ▸ upper
      exact Nat.lt_add_one_iff.1 (by exact_mod_cast this)
    have positive : m ≠ 0 := by
      have := Nat.two_pow_pos (52 + s)
      omega
    have places := (Nat.le_log2 positive).2 many
    have := under positive
    omega
  · by_cases zero : m = 0
    · rw [zero, Nat.log2_zero]
      omega
    · have := under zero
      omega

/-- Cutting off places down to a target exponent keeps what is known of the value. -/
theorem Describes.shiftToTargetExponent (enough : e ≤ -1074 ∨ 2 ^ 52 ≤ m) (least : -1074 ≤ target)
    (high : v / 2 ^ target < 2 ^ 53) (low : 2 ^ 52 ≤ v / 2 ^ target ∨ target = -1074) :
    ∃ em, shiftToTargetExponent .binary64 m e accuracy = (em, target) ∧
      Describes em (v / 2 ^ target) := by
  have exponent_le := h.exponent_le enough least high
  obtain ⟨s, rfl⟩ : ∃ s : ℕ, target = e + s := ⟨(target - e).toNat, by omega⟩
  refine ⟨ExtendedMantissa.ofMantissaAndAccuracy m accuracy >>> s, ?_, ?_⟩
  · rw [Float.Model.UnpackedFloat.shiftToTargetExponent, targetExponent_eq,
      h.max_log2_eq least high low, shiftToExponent]
    simp only [add_sub_cancel_left, Int.toNat_natCast]
  · rw [zpow_add₀ two_ne_zero, zpow_natCast, ← div_div]
    exact h.shiftRight s

end Shift

/-- A value that is rounded to an integral number of units comes out as the same number in
canonical form. -/
theorem Describes.roundWithAccuracy {m k mantissa : ℕ} {e target exponent : ℤ}
    {accuracy : Accuracy} {v : ℚ}
    (h : Describes (.ofMantissaAndAccuracy m accuracy) (v / 2 ^ e))
    (enough : e ≤ -1074 ∨ 2 ^ 52 ≤ m) (least : -1074 ≤ target) (high : v / 2 ^ target < 2 ^ 53)
    (low : 2 ^ 52 ≤ v / 2 ^ target ∨ target = -1074) (near : RoundsTo (v / 2 ^ target) k)
    (same : (k : ℚ) * 2 ^ target = mantissa * 2 ^ exponent) (positive : 0 < mantissa)
    (places : mantissa < 2 ^ 53) (least' : -1074 ≤ exponent)
    (full : 2 ^ 52 ≤ mantissa ∨ exponent = -1074) (sign : Sign) :
    roundWithAccuracy .binary64 sign m e accuracy = .finite sign mantissa exponent positive := by
  obtain ⟨first, shifted, described⟩ := h.shiftToTargetExponent enough least high low
  have rounded := described.roundedMantissa near
  have unit : (2 : ℚ) ^ exponent ≠ 0 := zpow_ne_zero _ two_ne_zero
  have whole : (mantissa : ℚ) * 2 ^ exponent / 2 ^ exponent = mantissa :=
    mul_div_cancel_right₀ _ unit
  have exact : Describes (.ofMantissaAndAccuracy k .exact)
      ((mantissa : ℚ) * 2 ^ exponent / 2 ^ target) := by
    rw [← same, mul_div_cancel_right₀ _ (zpow_ne_zero _ two_ne_zero)]
    exact describes_exact k
  have enough' : target ≤ -1074 ∨ 2 ^ 52 ≤ k := by
    refine low.symm.imp le_of_eq fun normal => ?_
    have : (2 : ℚ) ^ 52 < k + 1 := by linarith [near.upper]
    exact Nat.lt_add_one_iff.1 (by exact_mod_cast this)
  obtain ⟨second, shifted', described'⟩ := exact.shiftToTargetExponent enough' least'
    (by rw [whole]; exact_mod_cast places) (full.imp_left fun h => by rw [whole]; exact_mod_cast h)
  have kept : second.mantissa = mantissa := by
    have lower := described'.lower
    have upper := described'.upper
    rw [whole] at lower upper
    have upper' : mantissa < second.mantissa + 1 := by exact_mod_cast upper
    have lower' : second.mantissa ≤ mantissa := by exact_mod_cast lower
    omega
  simp only [Float.Model.UnpackedFloat.roundWithAccuracy, shifted, rounded, shifted', kept,
    dif_neg (Nat.ne_of_gt positive)]

end Rounding

namespace Decimal.Binary

open Rounding

/-! ### The values around a double -/

/-- The mantissa and the exponent of a positive finite double, as the format has them. -/
structure IsDouble (x : Binary) : Prop where
  positive : 0 < x.mantissa
  places : x.mantissa < 2 ^ 53
  least : -1074 ≤ x.exponent
  most : x.exponent < 972
  full : 2 ^ 52 ≤ x.mantissa ∨ x.exponent = -1074
  narrow_iff : x.narrow = true ↔ x.mantissa = 2 ^ 52 ∧ -1074 < x.exponent

/-- What part of a unit reaches the middle of the gap below. -/
def reach (x : Binary) : ℚ := if x.narrow then 1 / 4 else 1 / 2

/-- The value lies between the middles of the gaps, and strictly so if the mantissa is odd. -/
structure Covers (x : Binary) (v : ℚ) : Prop where
  lower : x.mantissa - x.reach ≤ v / 2 ^ x.exponent
  upper : v / 2 ^ x.exponent ≤ x.mantissa + 1 / 2
  odd : x.mantissa % 2 = 1 →
    x.mantissa - x.reach < v / 2 ^ x.exponent ∧ v / 2 ^ x.exponent < x.mantissa + 1 / 2

theorem reach_le (x : Binary) : x.reach ≤ 1 / 2 := by
  unfold reach
  split <;> norm_num

/-- A double lies in the middle. -/
theorem covers_self (x : Binary) : x.Covers (x.mantissa * 2 ^ x.exponent) := by
  have unit : (2 : ℚ) ^ x.exponent ≠ 0 := zpow_ne_zero _ two_ne_zero
  have reach_pos : 0 < x.reach := by
    unfold reach
    split <;> norm_num
  constructor <;> rw [mul_div_cancel_right₀ _ unit]
  · linarith
  · linarith
  · exact fun _ => ⟨by linarith, by linarith⟩

variable {x : Binary} {v : ℚ}

theorem Covers.roundWithAccuracy (covers : x.Covers v) (double : x.IsDouble) {m : ℕ} {e : ℤ}
    {accuracy : Accuracy} (h : Describes (.ofMantissaAndAccuracy m accuracy) (v / 2 ^ e))
    (enough : e ≤ -1074 ∨ 2 ^ 52 ≤ m) (sign : Sign) :
    roundWithAccuracy .binary64 sign m e accuracy =
      .finite sign x.mantissa x.exponent double.positive := by
  have reach_le := x.reach_le
  have places : (x.mantissa : ℚ) + 1 ≤ 2 ^ 53 := by exact_mod_cast double.places
  have high : v / 2 ^ x.exponent < 2 ^ 53 := by linarith [covers.upper]
  by_cases low : 2 ^ 52 ≤ v / 2 ^ x.exponent ∨ x.exponent = -1074
  · refine h.roundWithAccuracy enough double.least high low ?_ rfl _ double.places double.least
      double.full sign
    exact ⟨by linarith [covers.lower], covers.upper, fun odd =>
      ⟨by linarith [(covers.odd odd).1], (covers.odd odd).2⟩⟩
  · -- Just below a power of two the gap is half as wide, so this value is rounded in units of half
    -- the size, and up to the mantissa that is carried over.
    rw [not_or, not_le] at low
    have normal : 2 ^ 52 ≤ x.mantissa := double.full.resolve_right low.2
    have least := double.least
    have power : x.mantissa = 2 ^ 52 := by
      have : (x.mantissa : ℚ) < 2 ^ 52 + 1 := by linarith [covers.lower]
      have : x.mantissa < 2 ^ 52 + 1 := by exact_mod_cast this
      omega
    have narrow : x.reach = 1 / 4 := if_pos (double.narrow_iff.2 ⟨power, by omega⟩)
    have unit : (2 : ℚ) ^ x.exponent = 2 * 2 ^ (x.exponent - 1) := by
      rw [← zpow_one_add₀ two_ne_zero, add_sub_cancel]
    have finer : v / 2 ^ (x.exponent - 1) = 2 * (v / 2 ^ x.exponent) := by
      rw [unit, mul_div_assoc', mul_div_mul_left _ _ two_ne_zero]
    have lower := covers.lower
    rw [narrow, power] at lower
    push_cast at lower
    refine h.roundWithAccuracy (k := 2 ^ 53) enough (show -1074 ≤ x.exponent - 1 by omega)
      (by rw [finer]; linarith [low.1]) (.inl (by rw [finer]; linarith)) ?_ ?_ _
      double.places double.least double.full sign
    · rw [finer]
      refine ⟨?_, ?_, fun odd => absurd odd (by decide)⟩
      · push_cast
        linarith
      · push_cast
        linarith [low.1]
    · rw [unit, power]
      push_cast
      ring

theorem Covers.pos (covers : x.Covers v) (double : x.IsDouble) : 0 < v := by
  have unit : (0 : ℚ) < 2 ^ x.exponent := by positivity
  have positive : (1 : ℚ) ≤ x.mantissa := by exact_mod_cast double.positive
  have scaled : 0 < v / 2 ^ x.exponent := by linarith [covers.lower, x.reach_le]
  exact (div_pos_iff_of_pos_right unit).1 scaled

/-! ### Products and quotients -/

/-- **A product** of two mantissas with enough places is rounded to the double around it. -/
theorem Covers.mul {m₁ m₂ : ℕ} {e₁ e₂ : ℤ} (covers : x.Covers (m₁ * m₂ * 2 ^ (e₁ + e₂)))
    (double : x.IsDouble) (h₁ : 0 < m₁) (h₂ : 0 < m₂) (enough : 2 ^ 52 ≤ m₁ * m₂) :
    UnpackedFloat.mul .binary64 (.finite .positive m₁ e₁ h₁) (.finite .positive m₂ e₂ h₂) =
      .finite .positive x.mantissa x.exponent double.positive := by
  have described : Describes (.ofMantissaAndAccuracy (m₁ * m₂) .exact)
      ((m₁ * m₂ * 2 ^ (e₁ + e₂) : ℚ) / 2 ^ (e₁ + e₂)) := by
    rw [mul_div_cancel_right₀ _ (zpow_ne_zero _ two_ne_zero)]
    exact_mod_cast describes_exact (m₁ * m₂)
  exact covers.roundWithAccuracy double described (.inr enough) .positive

/-- **A quotient** of two mantissas is rounded to the double around it: it is computed with enough
places. -/
theorem Covers.div {m₁ m₂ : ℕ} {e₁ e₂ : ℤ} (covers : x.Covers (m₁ / m₂ * 2 ^ (e₁ - e₂)))
    (double : x.IsDouble) (h₁ : 0 < m₁) (h₂ : 0 < m₂) :
    UnpackedFloat.div .binary64 (.finite .positive m₁ e₁ h₁) (.finite .positive m₂ e₂ h₂) =
      .finite .positive x.mantissa x.exponent double.positive := by
  have target_eq : Format.binary64.targetExponent (totalExponent m₁ e₁ - totalExponent m₂ e₂) =
      max ((m₁.log2 + e₁) - (m₂.log2 + e₂) - 53) (-1074) := by
    simp only [Format.targetExponent, totalExponent, Format.mantissaBits, Format.minExponent]
    norm_num
    omega
  -- The dividend is shifted by as many places as the quotient lacks.
  obtain ⟨s, hs⟩ : ∃ s : ℕ, s = (e₁ - e₂ -
    min (e₁ - e₂) (max ((m₁.log2 + e₁) - (m₂.log2 + e₂) - 53) (-1074))).toNat := ⟨_, rfl⟩
  have exponent : min (e₁ - e₂) (max ((m₁.log2 + e₁) - (m₂.log2 + e₂) - 53) (-1074)) =
      e₁ - e₂ - s := by omega
  have described := describes_quotient (m₁ <<< s) h₂
  have enough : e₁ - e₂ - s ≤ -1074 ∨ 2 ^ 52 ≤ (m₁ <<< s) / m₂ := by
    refine or_iff_not_imp_left.2 fun large => ?_
    rw [Nat.le_div_iff_mul_le h₂, Nat.shiftLeft_eq]
    calc 2 ^ 52 * m₂ ≤ 2 ^ 52 * 2 ^ (m₂.log2 + 1) :=
          Nat.mul_le_mul_left _ (Nat.le_of_lt Nat.lt_log2_self)
      _ = 2 ^ (m₂.log2 + 53) := by rw [← Nat.pow_add]; congr 1; omega
      _ ≤ 2 ^ (m₁.log2 + s) := Nat.pow_le_pow_right two_pos (by omega)
      _ ≤ m₁ * 2 ^ s := by
        rw [Nat.pow_add]
        exact Nat.mul_le_mul_right _ (Nat.log2_self_le (Nat.ne_of_gt h₁))
  have value : (m₁ / m₂ * 2 ^ (e₁ - e₂) : ℚ) / 2 ^ (e₁ - e₂ - s) = (m₁ <<< s : ℕ) / m₂ := by
    rw [Nat.shiftLeft_eq, zpow_sub₀ two_ne_zero (e₁ - e₂), zpow_natCast]
    push_cast
    field_simp
  have rounded := covers.roundWithAccuracy double (value ▸ described) enough .positive
  simp only [UnpackedFloat.div, divCore, target_eq, ← hs]
  rw [exponent]
  exact rounded

end Decimal.Binary

end SymbolTrees
