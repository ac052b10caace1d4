import SymbolTrees.Json.Reader
import SymbolTrees.Proofs.Decimal.Bits

/-!
# The double that a decimal is read as

A decimal is read as the double around it, whichever way that is computed: short mantissas and small
powers of ten are exact doubles that are multiplied or divided, all others are products or quotients
of integers. Decimals that are far out of range are not computed at all, but none of them lies
around a finite double.

Main statement: `Decimal.Binary.Covers.decimal`.
-/

open Float.Model Float.Model.UnpackedFloat

namespace SymbolTrees

namespace Rounding

/-! ### Exact doubles -/

/-- A positive value that a mantissa with all its places has exactly. -/
inductive Amounts (v : ℚ) : UnpackedFloat → Prop
  | finite {m : ℕ} {e : ℤ} (h : 0 < m) (full : 2 ^ 52 ≤ m) (value : (m : ℚ) * 2 ^ e = v) :
    Amounts v (.finite .positive m e h)

/-- Whether a value is that natural number, and has all its places. -/
def isExactly (n : ℕ) : UnpackedFloat → Bool
  | .finite .positive m e _ => 2 ^ 52 ≤ m && m * 2 ^ e.toNat == n * 2 ^ (-e).toNat
  | _ => false

theorem amounts_of_isExactly {n : ℕ} {x : UnpackedFloat} (h : isExactly n x) : Amounts n x := by
  unfold isExactly at h
  split at h
  next m e positive =>
    rw [Bool.and_eq_true, decide_eq_true_iff, beq_iff_eq] at h
    refine .finite positive h.1 ?_
    have value : (m : ℚ) * 2 ^ e.toNat = n * 2 ^ (-e).toNat := by exact_mod_cast h.2
    have split : e = e.toNat - (-e).toNat := by omega
    rw [split, zpow_sub₀ two_ne_zero, zpow_natCast, zpow_natCast, mul_div_assoc', value,
      mul_div_cancel_right₀ _ (by positivity)]
  next => cases h

theorem amounts_powerOfTen : ∀ e : Fin 23,
    Amounts (10 ^ (e : ℕ)) (Float.exactlyRepresentablePowersOfTen[e]).toModel.unpack := by
  have table : ∀ e : Fin 23, isExactly (10 ^ (e : ℕ))
      (Float.exactlyRepresentablePowersOfTen[e]).toModel.unpack = true := by decide +kernel
  exact fun e => by exact_mod_cast amounts_of_isExactly (table e)

end Rounding

namespace Decimal.Binary

open Rounding

/-- A short mantissa is an exact double. -/
theorem amounts_toFloat {n : ℕ} (positive : 0 < n) (small : n < 2 ^ 53) :
    Amounts n n.toUInt64.toFloat.toModel.unpack := by
  have places : n.log2 < 53 := (Nat.log2_lt (by omega)).2 small
  have shifted : (n <<< (52 - n.log2)).log2 = 52 := by
    rw [log2_shiftLeft positive]
    omega
  have bounds := (Nat.log2_eq_iff (by rw [Nat.shiftLeft_eq]; positivity)).1 shifted
  let x : Binary := ⟨n <<< (52 - n.log2), n.log2 - 52, n <<< (52 - n.log2) = 2 ^ 52⟩
  have double : x.IsDouble :=
    { positive := by show 0 < n <<< (52 - n.log2); omega
      places := bounds.2
      least := by show -1074 ≤ (n.log2 : ℤ) - 52; omega
      most := by show (n.log2 : ℤ) - 52 < 972; omega
      full := .inl bounds.1
      narrow_iff := by
        show decide _ = true ↔ _ ∧ -1074 < (n.log2 : ℤ) - 52
        rw [decide_eq_true_iff, and_iff_left (by omega)] }
  have described : Describes (.ofMantissaAndAccuracy x.mantissa .exact)
      ((x.mantissa * 2 ^ x.exponent : ℚ) / 2 ^ x.exponent) := by
    rw [mul_div_cancel_right₀ _ (zpow_ne_zero _ two_ne_zero)]
    exact describes_exact _
  have rounded := x.covers_self.roundWithAccuracy double described (.inr bounds.1) .positive
  rw [toModel_toFloat positive small, rounded, double.unpack_pack]
  refine .finite _ bounds.1 ?_
  show ((n <<< (52 - n.log2) : ℕ) : ℚ) * 2 ^ ((n.log2 : ℤ) - 52) = n
  have exponent : (n.log2 : ℤ) - 52 = -(52 - n.log2 : ℕ) := by omega
  rw [exponent, Nat.shiftLeft_eq, zpow_neg, zpow_natCast]
  push_cast
  rw [mul_assoc, mul_inv_cancel₀ (by positivity), mul_one]

variable {x : Binary}

theorem Covers.mul_amounts {v w : ℚ} {a b : UnpackedFloat} (covers : x.Covers (v * w))
    (double : x.IsDouble) (ha : Amounts v a) (hb : Amounts w b) :
    UnpackedFloat.mul .binary64 a b = .finite .positive x.mantissa x.exponent double.positive := by
  obtain ⟨h₁, full₁, rfl⟩ := ha
  obtain ⟨h₂, full₂, rfl⟩ := hb
  rw [mul_mul_mul_comm, ← zpow_add₀ two_ne_zero] at covers
  exact covers.mul double h₁ h₂ (le_trans full₁ (Nat.le_mul_of_pos_right _ h₂))

theorem Covers.div_amounts {v w : ℚ} {a b : UnpackedFloat} (covers : x.Covers (v / w))
    (double : x.IsDouble) (ha : Amounts v a) (hb : Amounts w b) :
    UnpackedFloat.div .binary64 a b = .finite .positive x.mantissa x.exponent double.positive := by
  obtain ⟨h₁, -, rfl⟩ := ha
  obtain ⟨h₂, -, rfl⟩ := hb
  rw [mul_div_mul_comm, ← zpow_sub₀ two_ne_zero] at covers
  exact covers.div double h₁ h₂

/-! ### The range of doubles -/

theorem Covers.least {v : ℚ} (covers : x.Covers v) (double : x.IsDouble) :
    2 ^ (-1075 : ℤ) ≤ v := by
  have unit : (0 : ℚ) < 2 ^ x.exponent := by positivity
  have positive : (1 : ℚ) ≤ x.mantissa := by exact_mod_cast double.positive
  have scaled : 1 / 2 ≤ v / 2 ^ x.exponent := by linarith [covers.lower, x.reach_le]
  calc (2 : ℚ) ^ (-1075 : ℤ) ≤ 2 ^ (x.exponent - 1) :=
        zpow_le_zpow_right₀ one_le_two (by have := double.least; omega)
    _ = 1 / 2 * 2 ^ x.exponent := by rw [zpow_sub_one₀ two_ne_zero]; ring
    _ ≤ v := (le_div_iff₀ unit).1 scaled

theorem Covers.most {v : ℚ} (covers : x.Covers v) (double : x.IsDouble) :
    v < 2 ^ (1024 : ℤ) := by
  have unit : (0 : ℚ) < 2 ^ x.exponent := by positivity
  have places : (x.mantissa : ℚ) + 1 ≤ 2 ^ 53 := by exact_mod_cast double.places
  have scaled : v / 2 ^ x.exponent < 2 ^ 53 := by linarith [covers.upper]
  calc v < 2 ^ 53 * 2 ^ x.exponent := (div_lt_iff₀ unit).1 scaled
    _ = 2 ^ (53 + x.exponent) := by rw [zpow_add₀ two_ne_zero]; norm_num
    _ ≤ 2 ^ (1024 : ℤ) := zpow_le_zpow_right₀ one_le_two (by have := double.most; omega)

/-! ### Scientific notation -/

/-- The mantissa is not zero, and the exponent not so far out that nothing is computed. -/
theorem Covers.scientific_range {m : ℕ} {e : ℤ} (covers : x.Covers (m * 10 ^ e))
    (double : x.IsDouble) : m ≠ 0 ∧ e ≤ 2048 ∧ -(2048 + (m.log2 : ℤ)) ≤ e := by
  have nonzero : m ≠ 0 := by
    rintro rfl
    have := covers.pos double
    simp at this
  have positive : (1 : ℚ) ≤ m := by exact_mod_cast Nat.one_le_iff_ne_zero.2 nonzero
  refine ⟨nonzero, ?_, ?_⟩
  · by_contra large
    refine absurd (covers.most double) (not_lt.2 ?_)
    calc (2 : ℚ) ^ (1024 : ℤ) ≤ 2 ^ e := zpow_le_zpow_right₀ one_le_two (by omega)
      _ ≤ 10 ^ e := zpow_le_zpow_left₀ (by omega) (by norm_num) (by norm_num)
      _ ≤ m * 10 ^ e := le_mul_of_one_le_left (by positivity) positive
  · by_contra small
    refine absurd (covers.least double) (not_le.2 ?_)
    have places : (m : ℚ) < 2 ^ (m.log2 + 1) := by exact_mod_cast Nat.lt_log2_self
    obtain ⟨k, rfl⟩ : ∃ k : ℕ, e = -k := ⟨(-e).toNat, by omega⟩
    calc (m : ℚ) * 10 ^ (-(k : ℤ)) < 2 ^ (m.log2 + 1) * 10 ^ (-(k : ℤ)) := by gcongr
      _ ≤ 2 ^ (m.log2 + 1) * 2 ^ (-(k : ℤ)) := by
        rw [zpow_neg, zpow_neg, zpow_natCast, zpow_natCast]
        gcongr
        norm_num
      _ = 2 ^ ((m.log2 + 1 : ℕ) - (k : ℤ)) := by
        rw [← zpow_natCast, ← zpow_add₀ two_ne_zero, sub_eq_add_neg]
      _ ≤ 2 ^ (-1075 : ℤ) := zpow_le_zpow_right₀ one_le_two (by omega)

theorem Covers.model_ofScientific {m : ℕ} {e : ℤ} (covers : x.Covers (m * 10 ^ e))
    (double : x.IsDouble) :
    UnpackedFloat.ofScientific .binary64 m e =
      .finite .positive x.mantissa x.exponent double.positive := by
  obtain ⟨nonzero, not_large, not_small⟩ := covers.scientific_range double
  have positive := Nat.pos_of_ne_zero nonzero
  have range : (2 ^ Format.binary64.exponentBits : ℤ) = 2048 := by norm_num
  rw [UnpackedFloat.ofScientific, dif_neg nonzero, range, if_neg (not_lt.2 not_large),
    if_neg (not_lt.2 not_small)]
  split
  next nonneg =>
    obtain ⟨k, rfl⟩ := Int.eq_ofNat_of_zero_le nonneg
    refine Covers.mul ?_ double _ _ ?_
    · have value : ((m <<< Format.binary64.mantissaBits : ℕ) : ℚ) *
          ((10 ^ (k : ℤ).toNat : ℕ) : ℚ) * 2 ^ (-(Format.binary64.mantissaBits : ℤ) + 0) =
          m * 10 ^ (k : ℤ) := by
        rw [Nat.shiftLeft_eq, add_zero, zpow_neg, zpow_natCast, zpow_natCast, Int.toNat_natCast]
        push_cast
        field_simp
      rw [value]
      exact covers
    · rw [Nat.shiftLeft_eq]
      calc 2 ^ 52 ≤ 1 * 2 ^ Format.binary64.mantissaBits * 1 := by decide
        _ ≤ m * 2 ^ Format.binary64.mantissaBits * 10 ^ (k : ℤ).toNat :=
          Nat.mul_le_mul (Nat.mul_le_mul_right _ positive) (Nat.pow_pos (by decide))
  next negative =>
    obtain ⟨k, rfl⟩ : ∃ k : ℕ, e = -k := ⟨(-e).toNat, by omega⟩
    refine Covers.div ?_ double _ _
    have value : (m : ℚ) / ((10 ^ (- -(k : ℤ)).toNat : ℕ) : ℚ) * 2 ^ ((0 : ℤ) - 0) =
        m * 10 ^ (-(k : ℤ)) := by
      rw [neg_neg, Int.toNat_natCast, sub_zero, zpow_zero, mul_one, zpow_neg, zpow_natCast]
      push_cast
      rw [div_eq_mul_inv]
    rw [value]
    exact covers

/-- The positive double. -/
def IsDouble.toFloat (double : x.IsDouble) : Float :=
  .ofModel (.pack (.finite .positive x.mantissa x.exponent double.positive))

theorem Covers.ofScientific {m e : ℕ} {negative : Bool}
    (covers : x.Covers (m * 10 ^ (if negative then -(e : ℤ) else e))) (double : x.IsDouble) :
    Float.ofScientific m negative e = double.toFloat := by
  have positive := Nat.pos_of_ne_zero (covers.scientific_range double).1
  rw [Float.ofScientific]
  split
  next short =>
    have mantissa := amounts_toFloat positive short.1
    have power := amounts_powerOfTen ⟨e, Nat.lt_succ_of_le short.2⟩
    cases negative with
    | false =>
      rw [if_neg Bool.false_ne_true, zpow_natCast] at covers
      exact congrArg (Float.ofModel ∘ .pack) (covers.mul_amounts double mantissa power)
    | true =>
      rw [if_pos rfl, zpow_neg, zpow_natCast, ← div_eq_mul_inv] at covers
      exact congrArg (Float.ofModel ∘ .pack) (covers.div_amounts double mantissa power)
  next =>
    refine congrArg (Float.ofModel ∘ .pack) (Covers.model_ofScientific ?_ double)
    cases negative with
    | false => exact covers
    | true =>
      rw [if_pos rfl] at covers
      rw [if_pos rfl, Int.negOfNat_eq]
      exact covers

/-! ### Digits -/

open Text.Integer

theorem ofDigits_eq (ds : List ℕ) : ofDigits ds = Nat.ofDigits 10 ds.reverse := by
  rw [ofDigits, Nat.ofDigits_eq_foldr, List.foldr_reverse]
  simp only [Nat.cast_id, Nat.add_comm]

theorem ofDigits_append (ds es : List ℕ) :
    ofDigits (ds ++ es) = ofDigits ds * 10 ^ es.length + ofDigits es := by
  rw [ofDigits_eq, ofDigits_eq, ofDigits_eq, List.reverse_append, Nat.ofDigits_append,
    List.length_reverse, Nat.add_comm, Nat.mul_comm]

theorem ofDigits_cons (d : ℕ) (ds : List ℕ) :
    ofDigits (d :: ds) = d * 10 ^ ds.length + ofDigits ds := by
  rw [← List.singleton_append, ofDigits_append]
  simp [ofDigits]

theorem ofDigits_lt {ds : List ℕ} (small : ∀ d ∈ ds, d < 10) : ofDigits ds < 10 ^ ds.length := by
  rw [ofDigits_eq, ← List.length_reverse]
  exact Nat.ofDigits_lt_base_pow_length (by decide) fun d hd => small d (List.mem_reverse.1 hd)

theorem ofDigits_dropWhile_zero (ds : List ℕ) :
    ofDigits (ds.dropWhile (· == 0)) = ofDigits ds := by
  induction ds with
  | nil => rfl
  | cons d ds ih =>
    rw [List.dropWhile_cons]
    split
    next zero => rw [ih, ofDigits_cons, beq_iff_eq.1 zero, Nat.zero_mul, Nat.zero_add]
    next => rfl

/-- Three binary places are less than a decimal one. -/
theorem two_zpow_le_ten_zpow (n : ℕ) : (2 : ℚ) ^ (3 * n : ℤ) ≤ 10 ^ (n : ℤ) := by
  rw [zpow_mul, zpow_natCast, zpow_natCast]
  gcongr
  norm_num

/-- Digits around a double are neither so many nor so far from the point that they are not
counted. -/
theorem Covers.digits_range {d : ℕ} {ds : List ℕ} {exponent : ℤ}
    (covers : x.Covers (ofDigits (d :: ds) * 10 ^ exponent)) (double : x.IsDouble)
    (nonzero : d ≠ 0) (small : ∀ n ∈ d :: ds, n < 10) :
    exponent + (d :: ds).length ≤ 400 ∧ -400 ≤ exponent + (d :: ds).length := by
  have unit : (0 : ℚ) < 10 ^ exponent := by positivity
  rw [List.length_cons]
  constructor
  · by_contra large
    refine absurd (covers.most double) (not_lt.2 ?_)
    have least : (10 : ℚ) ^ ds.length ≤ ofDigits (d :: ds) := by
      have : 10 ^ ds.length ≤ ofDigits (d :: ds) := by
        rw [ofDigits_cons]
        exact le_add_right (Nat.le_mul_of_pos_left _ (Nat.pos_of_ne_zero nonzero))
      exact_mod_cast this
    calc (2 : ℚ) ^ (1024 : ℤ) ≤ 2 ^ (3 * (400 : ℕ) : ℤ) :=
          zpow_le_zpow_right₀ one_le_two (by decide)
      _ ≤ 10 ^ ((400 : ℕ) : ℤ) := two_zpow_le_ten_zpow 400
      _ ≤ 10 ^ (ds.length + exponent) := zpow_le_zpow_right₀ (by norm_num) (by omega)
      _ = 10 ^ ds.length * 10 ^ exponent := by
        rw [zpow_add₀ (by norm_num), zpow_natCast]
      _ ≤ ofDigits (d :: ds) * 10 ^ exponent := by gcongr
  · by_contra far
    refine absurd (covers.least double) (not_le.2 ?_)
    have most : (ofDigits (d :: ds) : ℚ) < 10 ^ (ds.length + 1) := by
      exact_mod_cast ofDigits_lt small
    calc (ofDigits (d :: ds) : ℚ) * 10 ^ exponent < 10 ^ (ds.length + 1) * 10 ^ exponent := by
          gcongr
      _ = 10 ^ ((ds.length + 1 : ℕ) + exponent) := by
        rw [zpow_add₀ (by norm_num), zpow_natCast]
      _ ≤ 10 ^ (-((401 : ℕ) : ℤ)) := zpow_le_zpow_right₀ (by norm_num) (by omega)
      _ ≤ 2 ^ (-(3 * (401 : ℕ) : ℤ)) := by
        rw [zpow_neg, zpow_neg]
        exact inv_anti₀ (by positivity) (two_zpow_le_ten_zpow 401)
      _ ≤ 2 ^ (-1075 : ℤ) := zpow_le_zpow_right₀ one_le_two (by decide)

/-- An exponent is its amount with its sign. -/
theorem signed_natAbs (e : ℤ) : (if decide (e < 0) then -(e.natAbs : ℤ) else e.natAbs) = e := by
  split
  next negative =>
    rw [decide_eq_true_iff] at negative
    omega
  next nonneg =>
    rw [decide_eq_true_iff] at nonneg
    omega

/-- **A decimal** is read as the double around it. -/
theorem Covers.decimal {digits : List ℕ} {exponent : ℤ}
    (covers : x.Covers (ofDigits digits * 10 ^ exponent)) (double : x.IsDouble)
    (small : ∀ d ∈ digits, d < 10) :
    Json.Reader.decimal digits exponent = double.toFloat := by
  -- The zeros in front are left out before the places are counted.
  rw [← ofDigits_dropWhile_zero] at covers
  have small' : ∀ d ∈ digits.dropWhile (· == 0), d < 10 := fun d hd =>
    small d (List.dropWhile_subset _ hd)
  have leading := List.head?_dropWhile_not (· == 0) digits
  unfold Json.Reader.decimal
  simp only
  generalize digits.dropWhile (· == 0) = ds at *
  cases ds with
  | nil => exact absurd rfl (covers.scientific_range double).1
  | cons d ds =>
    have nonzero : d ≠ 0 := by simpa using leading
    obtain ⟨not_large, not_small⟩ := covers.digits_range double nonzero small'
    rw [List.isEmpty_cons, if_neg Bool.false_ne_true, if_neg (not_lt.2 not_large),
      if_neg (not_lt.2 not_small)]
    refine Covers.ofScientific ?_ double
    rw [signed_natAbs]
    exact covers

end Decimal.Binary

end SymbolTrees
