import Mathlib
import SymbolTrees.Number

/-!
# The double next to a positive integer

A double has a mantissa of 53 places. An integer with more loses its last ones, and the half of the
last place that stays goes to the even mantissa. Rounding may carry into a new place, which happens
below the bound from which on no finite double is next to an integer.

Main statements: `Rounding.unpack_ofNat` says which value an integer is rounded to, and
`Number.floatOfInt_natCast` for which integers there is one.
-/

open Float.Model Float.Model.UnpackedFloat

namespace SymbolTrees

namespace Rounding

/-! ### What is cut off -/

theorem mantissa_shiftRight (em : ExtendedMantissa) (s : Nat) :
    (em >>> s).mantissa = em.mantissa / 2 ^ s := by
  induction s with
  | zero => simp [HShiftRight.hShiftRight, Nat.repeat]
  | succ s ih =>
    have step : (em >>> (s + 1)).mantissa = (em >>> s).mantissa / 2 := rfl
    rw [step, ih, Nat.div_div_eq_div_mul, Nat.pow_succ]

theorem roundBit_shiftRight (em : ExtendedMantissa) (s : Nat) :
    (em >>> (s + 1)).roundBit = (em.mantissa / 2 ^ s % 2 != 0) := by
  have step : (em >>> (s + 1)).roundBit = ((em >>> s).mantissa % 2 != 0) := rfl
  rw [step, mantissa_shiftRight]

theorem roundedMantissa_bounds (em : ExtendedMantissa) :
    em.mantissa ≤ em.roundedMantissa ∧ em.roundedMantissa ≤ em.mantissa + 1 := by
  obtain ⟨m, r, t⟩ := em
  cases r <;> cases t <;>
    simp only [ExtendedMantissa.roundedMantissa, ExtendedMantissa.accuracy,
      Accuracy.roundToNearestEven] <;> omega

theorem roundedMantissa_of_roundBit_eq_false {em : ExtendedMantissa} (h : em.roundBit = false) :
    em.roundedMantissa = em.mantissa := by
  obtain ⟨m, r, t⟩ := em
  obtain rfl : r = false := h
  cases t <;> rfl

/-- A half of an odd mantissa is rounded up. -/
theorem roundedMantissa_of_odd {em : ExtendedMantissa} (h : em.roundBit = true)
    (odd : em.mantissa % 2 = 1) : em.roundedMantissa = em.mantissa + 1 := by
  obtain ⟨m, r, t⟩ := em
  obtain rfl : r = true := h
  cases t
  · show m + m % 2 = m + 1
    rw [show m % 2 = 1 from odd]
  · rfl

/-- A mantissa without its last `s` places, and what is known of those. -/
def cut (m s : Nat) : ExtendedMantissa := (⟨m, false, false⟩ : ExtendedMantissa) >>> s

theorem mantissa_cut (m s : Nat) : (cut m s).mantissa = m / 2 ^ s :=
  mantissa_shiftRight ⟨m, false, false⟩ s

theorem roundBit_cut (m s : Nat) : (cut m (s + 1)).roundBit = (m / 2 ^ s % 2 != 0) :=
  roundBit_shiftRight ⟨m, false, false⟩ s

theorem mantissa_cut_bounds {m s : Nat} (places : m.log2 = 52 + s) :
    2 ^ 52 ≤ (cut m s).mantissa ∧ (cut m s).mantissa < 2 ^ 53 := by
  have positive : m ≠ 0 := by
    rintro rfl
    rw [Nat.log2_zero] at places
    omega
  rw [mantissa_cut]
  constructor
  · rw [Nat.le_div_iff_mul_le (Nat.two_pow_pos s), ← Nat.pow_add, ← places]
    exact Nat.log2_self_le positive
  · rw [Nat.div_lt_iff_lt_mul (Nat.two_pow_pos s), ← Nat.pow_add,
      show 53 + s = m.log2 + 1 by omega]
    exact Nat.lt_log2_self

/-- The integer that is written with 54 ones and `k` zeros. -/
@[irreducible] def ones (k : Nat) : Nat := (2 ^ 54 - 1) * 2 ^ k

theorem ones_pos (k : Nat) : 0 < ones k := by
  rw [ones]
  exact Nat.mul_pos (by decide) (Nat.two_pow_pos k)

/-- Rounding carries into a new place from half a unit below it on. -/
theorem roundedMantissa_cut_eq_iff {m s : Nat} (places : m.log2 = 52 + (s + 1)) :
    (cut m (s + 1)).roundedMantissa = 2 ^ 53 ↔ ones s ≤ m := by
  have below := (mantissa_cut_bounds places).2
  have half : (cut m (s + 1)).mantissa = m / 2 ^ s / 2 := by
    rw [mantissa_cut, Nat.pow_succ, Nat.div_div_eq_div_mul]
  rw [ones, ← Nat.le_div_iff_mul_le (Nat.two_pow_pos s)]
  constructor
  · intro carries
    have up := (roundedMantissa_bounds (cut m (s + 1))).2
    have odd : m / 2 ^ s % 2 = 1 := by
      by_contra even
      have bit : (cut m (s + 1)).roundBit = false := by
        rw [roundBit_cut, bne_eq_false_iff_eq]
        omega
      rw [roundedMantissa_of_roundBit_eq_false bit] at carries
      omega
    omega
  · intro full
    have bit : (cut m (s + 1)).roundBit = true := by
      rw [roundBit_cut, bne_iff_ne]
      omega
    rw [roundedMantissa_of_odd bit (by omega)]
    omega

/-! ### Rounding -/

theorem targetExponent_eq (m : Nat) (e : Int) :
    Format.binary64.targetExponent (totalExponent m e) = max (m.log2 + e - 52) (-1074) := by
  simp only [Format.targetExponent, totalExponent, Format.mantissaBits, Format.minExponent]
  norm_num
  omega

theorem shiftToTargetExponent_eq {m s : Nat} {e : Int}
    (shift : (max (m.log2 + e - 52) (-1074) - e).toNat = s) :
    shiftToTargetExponent .binary64 m e .exact = (cut m s, e + s) := by
  rw [shiftToTargetExponent, targetExponent_eq, shiftToExponent, shift]
  rfl

/-- Rounding shifts twice, the second time for a place that the first has carried into. -/
theorem roundWithAccuracy_eq {m : Nat} {e : Int} {first second : ExtendedMantissa × Int}
    (shifts : shiftToTargetExponent .binary64 m e .exact = first)
    (again : shiftToTargetExponent .binary64 first.1.roundedMantissa first.2 .exact = second)
    (positive : 0 < second.1.mantissa) :
    roundWithAccuracy .binary64 .positive m e .exact =
      .finite .positive second.1.mantissa second.2 positive := by
  subst shifts again
  simp only [roundWithAccuracy, dif_neg (Nat.ne_of_gt positive)]

/-- Positive values with an exponent and a mantissa of 53 places. -/
inductive Normal (e : Int) : UnpackedFloat → Prop
  | finite {m : Nat} (h : 0 < m) (low : 2 ^ 52 ≤ m) (high : m < 2 ^ 53) :
    Normal e (.finite .positive m e h)

/-- Rounding a mantissa of 53 places or more leaves one of just as many, and what is cut off goes
to the exponent. -/
theorem normal_roundWithAccuracy {m s : Nat} {e : Int} (places : m.log2 = 52 + s)
    (least : -1074 ≤ e + s) :
    Normal (if (cut m s).roundedMantissa = 2 ^ 53 then e + s + 1 else e + s)
      (roundWithAccuracy .binary64 .positive m e .exact) := by
  have first := shiftToTargetExponent_eq (show (max (m.log2 + e - 52) (-1074) - e).toNat = s by omega)
  have bounds := mantissa_cut_bounds places
  have rounded := roundedMantissa_bounds (cut m s)
  by_cases carries : (cut m s).roundedMantissa = 2 ^ 53
  · have log2_eq : (cut m s).roundedMantissa.log2 = 53 := by rw [carries, Nat.log2_two_pow]
    have second := shiftToTargetExponent_eq (m := (cut m s).roundedMantissa) (e := e + s) (s := 1)
      (by omega)
    have half : (cut (cut m s).roundedMantissa 1).mantissa = 2 ^ 52 := by
      rw [mantissa_cut, carries]
      rfl
    rw [if_pos carries, roundWithAccuracy_eq first second (by rw [half]; decide)]
    exact .finite _ (by rw [half]) (by rw [half]; decide)
  · have log2_eq : (cut m s).roundedMantissa.log2 = 52 :=
      (Nat.log2_eq_iff (by omega)).2 ⟨by omega, by omega⟩
    have second := shiftToTargetExponent_eq (m := (cut m s).roundedMantissa) (e := e + s) (s := 0)
      (by omega)
    have whole : (cut (cut m s).roundedMantissa 0).mantissa = (cut m s).roundedMantissa := by
      rw [mantissa_cut, Nat.pow_zero, Nat.div_one]
    rw [if_neg carries, roundWithAccuracy_eq first second (by rw [whole]; omega)]
    have exponent : e + s + (0 : Nat) = e + s := Int.add_zero _
    simp only [whole, exponent]
    exact .finite _ (by omega) (by omega)

theorem Normal.isInf {e : Int} {x : UnpackedFloat} (normal : Normal e x) : x.isInf = false := by
  cases normal
  rfl

theorem Normal.pos {e : Int} {x : UnpackedFloat} (normal : Normal e x) :
    (UnpackedFloat.zero .positive).compare x = some .lt := by
  cases normal
  rfl

/-! ### Packing -/

theorem unpack_packedInfinity :
    UnpackedFloat.unpack .binary64 (packedInfinity .binary64 .positive) = .infinity .positive := by
  simp only [UnpackedFloat.unpack, packedInfinity, unpackMantissa_packComponents,
    unpackExponent_packComponents, unpackSign_packComponents, Sign.ofBitVec_toBitVec, ↓reduceIte]
  rfl

theorem toNat_append_pos (m : BitVec 52) : 0 < (1#1 ++ m).toNat := by
  rw [BitVec.toNat_append, ← Nat.shiftLeft_add_eq_or_of_lt m.isLt]
  exact Nat.lt_add_right _ (by decide)

theorem unpack_packComponents {b : BitVec 11} (m : BitVec 52) (not_all : b ≠ -1#11)
    (not_zero : b ≠ 0#11) (sign : Sign) :
    UnpackedFloat.unpack .binary64 (packComponents .binary64 sign b m) =
      .finite sign (1#1 ++ m).toNat ((b.toNat : Int) - 1075) (toNat_append_pos m) := by
  simp only [UnpackedFloat.unpack, unpackMantissa_packComponents, unpackExponent_packComponents,
    unpackSign_packComponents, Sign.ofBitVec_toBitVec, not_all, not_zero, ↓reduceIte]
  rfl

theorem toNat_append_ofNat {m : Nat} (low : 2 ^ 52 ≤ m) (high : m < 2 ^ 53) :
    (1#1 ++ BitVec.ofNat 52 m).toNat = m := by
  rw [BitVec.toNat_append, ← Nat.shiftLeft_add_eq_or_of_lt (BitVec.isLt _), BitVec.toNat_ofNat,
    Nat.shiftLeft_eq]
  simp only [BitVec.toNat_ofNat]
  omega

theorem pack_eq {m : Nat} {e : Int} (low : 2 ^ 52 ≤ m) (high : m < 2 ^ 53) (least : -1074 ≤ e)
    (h : 0 < m) {sign : Sign} :
    UnpackedFloat.pack .binary64 (.finite sign m e h) =
      if 972 ≤ e then packedInfinity .binary64 sign
      else packComponents .binary64 sign (BitVec.ofNat 11 (e + 1075).toNat)
        (BitVec.ofNat 52 m) := by
  have log2_eq : m.log2 = 52 := (Nat.log2_eq_iff (by omega)).2 ⟨low, high⟩
  have biased : (e + Format.binary64.exponentBias +
      Format.binary64.mantissaBitsWithoutImplicit).toNat = (e + 1075).toNat := by
    show (e + (1023 : Nat) + (52 : Nat)).toNat = _
    omega
  simp only [UnpackedFloat.pack, biased, log2_eq]
  by_cases large : 972 ≤ e
  · rw [if_pos large, if_pos (by omega)]
  · rw [if_neg large, if_neg (by omega), if_pos (by rfl)]

/-- A mantissa of 53 places is kept unless the exponent is too large. -/
theorem unpack_pack_of_normal {m : Nat} {e : Int} (low : 2 ^ 52 ≤ m) (high : m < 2 ^ 53)
    (least : -1074 ≤ e) (most : e < 972) (h : 0 < m) (sign : Sign) :
    UnpackedFloat.unpack .binary64 (UnpackedFloat.pack .binary64 (.finite sign m e h)) =
      .finite sign m e h := by
  have biased : (BitVec.ofNat 11 (e + 1075).toNat).toNat = (e + 1075).toNat := by
    rw [BitVec.toNat_ofNat]
    omega
  have not_all : BitVec.ofNat 11 (e + 1075).toNat ≠ -1#11 := by
    intro all
    rw [all, show (-1#11).toNat = 2047 from rfl] at biased
    omega
  have not_zero : BitVec.ofNat 11 (e + 1075).toNat ≠ 0#11 := by
    intro zero
    rw [zero, show (0#11).toNat = 0 from rfl] at biased
    omega
  rw [pack_eq low high least, if_neg (by omega), unpack_packComponents _ not_all not_zero]
  simp only [toNat_append_ofNat low high, biased]
  congr 1
  omega

/-- A value is kept unless its exponent is too large. -/
theorem Normal.unpack_pack {e : Int} {x : UnpackedFloat} (normal : Normal e x)
    (least : -1074 ≤ e) :
    (Float.Model.pack x).unpack = if 972 ≤ e then .infinity .positive else x := by
  obtain ⟨h, low, high⟩ := normal
  show UnpackedFloat.unpack .binary64 (UnpackedFloat.pack .binary64 (.finite .positive _ e h)) = _
  by_cases large : 972 ≤ e
  · rw [pack_eq low high least, if_pos large, if_pos large, unpack_packedInfinity]
  · rw [if_neg large, unpack_pack_of_normal low high least (not_le.1 large)]

/-! ### Integers -/

/-- The least integer that is rounded to infinity: half a unit more than the largest double. -/
def bound : Nat := ones 970

theorem bound_pos : 0 < bound := ones_pos 970

theorem log2_shiftLeft {n : Nat} (positive : 0 < n) (s : Nat) : (n <<< s).log2 = n.log2 + s := by
  rw [Nat.log2_eq_iff (by rw [Nat.shiftLeft_eq]; positivity), Nat.shiftLeft_eq]
  constructor
  · rw [Nat.pow_add]
    exact Nat.mul_le_mul_right _ (Nat.log2_self_le (by omega))
  · rw [show n.log2 + s + 1 = n.log2 + 1 + s by omega, Nat.pow_add]
    exact Nat.mul_lt_mul_of_pos_right Nat.lt_log2_self (Nat.two_pow_pos s)

/-- The product with one is rounded to a value of the same size. -/
theorem Normal.mul_one {e : Int} {x : UnpackedFloat} (normal : Normal e x) (least : -1074 ≤ e) :
    ∃ d, Normal d (UnpackedFloat.mul .binary64 x (Float.ofBits 0x3FF0000000000000).toModel.unpack) ∧
      e ≤ d ∧ d ≤ e + 1 := by
  obtain ⟨h, low, high⟩ := normal
  rename_i m
  have places : (m * 2 ^ 52).log2 = 52 + 52 := by
    rw [← Nat.shiftLeft_eq, log2_shiftLeft h, (Nat.log2_eq_iff (by omega)).2 ⟨low, high⟩]
  have rounded := normal_roundWithAccuracy (e := e + -52) places (by omega)
  exact ⟨_, rounded, by split <;> omega, by split <;> omega⟩

theorem round_of_lt {n : Nat} (positive : 0 < n) (small : n < 2 ^ 53) :
    UnpackedFloat.round .binary64 .positive n 0 =
      roundWithAccuracy .binary64 .positive (n <<< (52 - n.log2)) (n.log2 - 52) .exact := by
  have places : n.log2 < 53 := (Nat.log2_lt (by omega)).2 small
  have shift : ((0 : Int) - max ((n.log2 : Int) + 0 - 52) (-1074)).toNat = 52 - n.log2 := by omega
  have exponent : (0 : Int) - (52 - n.log2 : Nat) = n.log2 - 52 := by omega
  simp only [UnpackedFloat.round, decreaseExponent, targetExponent_eq, shift, exponent]

theorem toModel_toFloat {n : Nat} (positive : 0 < n) (small : n < 2 ^ 53) :
    n.toUInt64.toFloat.toModel = Float.Model.pack
      (roundWithAccuracy .binary64 .positive (n <<< (52 - n.log2)) (n.log2 - 52) .exact) := by
  have word : n.toUInt64.toNat = n := by
    rw [Nat.toUInt64_eq, UInt64.toNat_ofNat']
    exact Nat.mod_eq_of_lt (by omega)
  show Float.Model.pack (UnpackedFloat.normalize .binary64 (n.toUInt64.toNat : Int) 0 .positive) = _
  rw [word, UnpackedFloat.normalize, show compare (n : Int) 0 = .gt by rw [Int.compare_eq_gt]; omega]
  exact congrArg Float.Model.pack (round_of_lt positive small)

theorem normal_toFloat {n : Nat} (positive : 0 < n) (small : n < 2 ^ 53) :
    ∃ e, Normal e n.toUInt64.toFloat.toModel.unpack ∧ -52 ≤ e ∧ e ≤ 1 := by
  have places : n.log2 < 53 := (Nat.log2_lt (by omega)).2 small
  have rounded := normal_roundWithAccuracy (m := n <<< (52 - n.log2)) (s := 0) (e := n.log2 - 52)
    (by rw [log2_shiftLeft positive]; omega) (by omega)
  rw [toModel_toFloat positive small, rounded.unpack_pack (by split <;> omega),
    if_neg (by split <;> omega)]
  exact ⟨_, rounded, by split <;> omega, by split <;> omega⟩

theorem normal_ofNat_of_lt {n : Nat} (positive : 0 < n) (small : n < 2 ^ 53) :
    ∃ e, Normal e (Float.ofNat n).toModel.unpack := by
  obtain ⟨e, word, least, most⟩ := normal_toFloat positive small
  obtain ⟨d, product, lower, upper⟩ := word.mul_one (by omega)
  have model : (Float.ofNat n).toModel =
      Float.Model.pack (UnpackedFloat.mul .binary64 n.toUInt64.toFloat.toModel.unpack
        (Float.ofBits 0x3FF0000000000000).toModel.unpack) := by
    show (Float.ofScientific n false 0).toModel = _
    rw [Float.ofScientific, dif_pos ⟨small, by decide⟩]
    rfl
  rw [model, product.unpack_pack (by omega), if_neg (by omega)]
  exact ⟨d, product⟩

theorem ofNat_of_le {n : Nat} (large : 2 ^ 53 ≤ n) :
    (Float.ofNat n).toModel =
      Float.Model.pack (roundWithAccuracy .binary64 .positive (n <<< 53) (-53) .exact) := by
  show (Float.ofScientific n false 0).toModel = _
  rw [Float.ofScientific, dif_neg (by omega)]
  show Float.Model.pack (UnpackedFloat.ofScientific .binary64 n 0) = _
  rw [UnpackedFloat.ofScientific, dif_neg (by omega), if_neg (by decide),
    if_neg (not_lt.2 (neg_nonpos.2 (by positivity))), if_pos (by decide)]
  show Float.Model.pack (roundWithAccuracy .binary64 .positive (n <<< 53 * 1) (-53 + 0) .exact) = _
  rw [Nat.mul_one, Int.add_zero]

theorem ones_le_iff {n : Nat} (positive : 0 < n) (k : Nat) :
    ones k ≤ n ↔ 54 + k ≤ n.log2 ∨ n.log2 = 53 + k ∧ ones n.log2 ≤ n <<< 53 := by
  have low := Nat.log2_self_le (n := n) (by omega)
  have high := Nat.lt_log2_self (n := n)
  have shifted : ones (53 + k) = ones k * 2 ^ 53 := by
    rw [ones, ones, Nat.add_comm, Nat.pow_add, Nat.mul_assoc]
  constructor
  · intro large
    by_cases many : 54 + k ≤ n.log2
    · exact .inl many
    · have places : n.log2 = 53 + k := by
        by_contra few
        have := Nat.pow_le_pow_right (n := 2) (by decide) (show n.log2 + 1 ≤ 53 + k by omega)
        rw [Nat.pow_add 2 53 k] at this
        rw [ones] at large
        omega
      refine .inr ⟨places, ?_⟩
      rw [places, Nat.shiftLeft_eq, shifted]
      exact Nat.mul_le_mul_right _ large
  · rintro (many | ⟨places, carries⟩)
    · have := Nat.pow_le_pow_right (n := 2) (by decide) many
      rw [Nat.pow_add] at this
      rw [ones]
      omega
    · rw [places, Nat.shiftLeft_eq, shifted] at carries
      exact Nat.le_of_mul_le_mul_right carries (by decide)

/-- An integer reaches the bound if it has too many places, or if rounding carries into one that is
too many. -/
theorem bound_le_iff {n : Nat} (positive : 0 < n) :
    bound ≤ n ↔ 1024 ≤ n.log2 ∨ n.log2 = 1023 ∧ ones n.log2 ≤ n <<< 53 := by
  exact ones_le_iff positive 970

/-- What an integer of more than 53 places is rounded to, and its exponent. -/
theorem normal_of_le {n : Nat} (large : 2 ^ 53 ≤ n) :
    ∃ e, Normal e (roundWithAccuracy .binary64 .positive (n <<< 53) (-53) .exact) ∧ 0 ≤ e ∧
      (972 ≤ e ↔ bound ≤ n) := by
  have places : 53 ≤ n.log2 := (Nat.le_log2 (by omega)).2 large
  have shifted : (n <<< 53).log2 = 52 + (n.log2 + 1) := by
    rw [log2_shiftLeft (by omega)]
    omega
  have rounded := normal_roundWithAccuracy (e := -53) shifted (by omega)
  have carries := roundedMantissa_cut_eq_iff shifted
  refine ⟨_, rounded, by split <;> omega, ?_⟩
  rw [bound_le_iff (by omega), ← carries]
  split <;> omega

/-- **The nearest double** of a positive integer is infinite exactly from the bound on, and else a
positive value. -/
theorem unpack_ofNat {n : Nat} (positive : 0 < n) :
    if bound ≤ n then (Float.ofNat n).toModel.unpack = .infinity .positive
    else ∃ e, Normal e (Float.ofNat n).toModel.unpack := by
  rcases Nat.lt_or_ge n (2 ^ 53) with small | large
  · have below : ¬ bound ≤ n := by
      have := (Nat.log2_lt (by omega)).2 small
      rw [bound_le_iff positive]
      omega
    rw [if_neg below]
    exact normal_ofNat_of_lt positive small
  · obtain ⟨e, normal, least, infinite⟩ := normal_of_le large
    rw [ofNat_of_le large, normal.unpack_pack (le_trans (by decide) least)]
    by_cases h : bound ≤ n
    · rw [if_pos h, if_pos (infinite.2 h)]
    · rw [if_neg h, if_neg (mt infinite.1 h)]
      exact ⟨e, normal⟩

/-! ### Comparing with zero -/

theorem unpack_zero : (0 : Float).toModel.unpack = .zero .positive := by
  rfl

theorem lt_iff (x y : Float) :
    x < y ↔ x.toModel.unpack.compare y.toModel.unpack = some .lt := by
  show decide (x.toModel < y.toModel) = true ↔ _
  rw [decide_eq_true_iff]
  show UnpackedFloat.lt _ _ = true ↔ _
  rw [UnpackedFloat.lt, beq_iff_eq]

theorem le_iff (x y : Float) :
    x ≤ y ↔ (x.toModel.unpack.compare y.toModel.unpack).any (·.isLE) = true := by
  show decide (x.toModel ≤ y.toModel) = true ↔ _
  rw [decide_eq_true_iff]
  rfl

/-- What is not at most zero is positive or undefined. -/
theorem pos_of_not_le_zero {x : Float} (above : ¬ x ≤ 0) (number : x.isNaN = false) : 0 < x := by
  rw [le_iff, unpack_zero] at above
  rw [lt_iff, unpack_zero]
  have defined : x.toModel.unpack.isNaN = false := number
  generalize x.toModel.unpack = value at above defined ⊢
  cases value with
  | notANumber => cases defined
  | infinity sign | finite sign m e h =>
    cases sign with
    | positive => rfl
    | negative => exact absurd rfl above
  | zero sign => exact absurd rfl above

/-- What is positive is not at most zero. -/
theorem not_le_zero_of_pos {x : Float} (positive : 0 < x) : ¬ x ≤ 0 := by
  rw [lt_iff, unpack_zero] at positive
  rw [le_iff, unpack_zero]
  generalize x.toModel.unpack = value at positive ⊢
  cases value with
  | notANumber => cases positive
  | infinity sign | finite sign m e h =>
    cases sign with
    | positive => nofun
    | negative => cases positive
  | zero sign => cases positive

theorem ofNat_pos {n : Nat} (positive : 0 < n) : 0 < Float.ofNat n := by
  have value := unpack_ofNat positive
  rw [lt_iff, unpack_zero]
  split at value
  · rw [value]
    rfl
  · obtain ⟨e, normal⟩ := value
    exact normal.pos

theorem isInf_ofNat_iff {n : Nat} (positive : 0 < n) : (Float.ofNat n).isInf = true ↔ bound ≤ n := by
  have value := unpack_ofNat positive
  show (Float.ofNat n).toModel.unpack.isInf = true ↔ _
  split at value
  next large =>
    rw [value]
    exact iff_of_true rfl large
  next small =>
    obtain ⟨e, normal⟩ := value
    rw [normal.isInf]
    exact iff_of_false Bool.false_ne_true small

end Rounding

namespace Number

theorem le_log2_of_pow_le {n : Nat} (positive : 0 < n) {k : Nat} (h : Nat.pow 2 k ≤ n) :
    k ≤ n.log2 :=
  (Nat.le_log2 (Nat.ne_of_gt positive)).2 h

/-- **A positive integer** has a finite double next to it exactly below the bound. -/
theorem floatOfInt_natCast {n : Nat} (positive : 0 < n) :
    floatOfInt n =
      if Rounding.bound ≤ n then .error .tooLarge else .ok (Float.ofNat n) := by
  have value : Float.ofInt (n : Int) = Float.ofNat n := rfl
  rw [floatOfInt, Int.natAbs_natCast, value]
  split
  next many =>
    have places := le_log2_of_pow_le positive many
    have large : Rounding.bound ≤ n := (Rounding.bound_le_iff positive).2 (by omega)
    rw [if_pos large]
    rfl
  next =>
    simp only [Rounding.isInf_ofNat_iff positive]
    rfl

end Number

end SymbolTrees
