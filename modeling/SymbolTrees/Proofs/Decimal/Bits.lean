import SymbolTrees.Proofs.Decimal.Nearest

/-!
# The bits of a double

A double is kept as 64 bits: a sign, an exponent and a mantissa. Undefined doubles have one bit
pattern, so that unpacking the bits loses nothing.

Main statements: `Rounding.pack_unpack` and `Decimal.Binary.IsDouble.unpack_pack` are the two halves
of a round trip, and `Decimal.Binary.isDouble_ofBits` tells that the mantissa and the exponent that
are read off the bits are those of the double.
-/

open Float.Model Float.Model.UnpackedFloat

namespace SymbolTrees

namespace Rounding

/-! ### The fields -/

theorem toNat_unpackExponent (bits : UInt64) :
    (@unpackExponent .binary64 bits.toBitVec).toNat = ((bits >>> 52) &&& 0x7FF).toNat := by
  have h : (0x7FF : ℕ) = 2 ^ 11 - 1 := rfl
  rw [UInt64.toNat_and, UInt64.toNat_shiftRight]
  show (BitVec.extractLsb 62 52 bits.toBitVec).toNat = _ 
  rw [BitVec.extractLsb_toNat]
  show bits.toNat >>> 52 % 2 ^ 11 = bits.toNat >>> 52 &&& 2 ^ 11 - 1
  rw [Nat.and_two_pow_sub_one_eq_mod]

theorem toNat_unpackMantissa (bits : UInt64) :
    (@unpackMantissa .binary64 bits.toBitVec).toNat = (bits &&& 0xFFFFFFFFFFFFF).toNat := by
  rw [UInt64.toNat_and]
  show (BitVec.extractLsb 51 0 bits.toBitVec).toNat = _ 
  rw [BitVec.extractLsb_toNat]
  show bits.toNat >>> 0 % 2 ^ 52 = bits.toNat &&& 2 ^ 52 - 1
  rw [Nat.and_two_pow_sub_one_eq_mod, Nat.shiftRight_zero]

theorem unpackSign_eq_one_iff (bits : UInt64) :
    Sign.ofBitVec (@unpackSign .binary64 bits.toBitVec) = .negative ↔ bits >>> 63 = 1 := by
  rw [← UInt64.toNat_inj, UInt64.toNat_shiftRight]
  have h : (@unpackSign .binary64 bits.toBitVec).toNat = bits.toNat >>> 63 := by
    show (BitVec.extractLsb 63 63 bits.toBitVec).toNat = _ 
    rw [BitVec.extractLsb_toNat]
    show bits.toNat >>> 63 % 2 ^ 1 = bits.toNat >>> 63
    have := bits.toNat_lt
    omega
  show _ ↔ bits.toNat >>> 63 = 1
  rw [← h, Sign.ofBitVec]
  rcases BitVec.eq_zero_or_eq_one (@unpackSign .binary64 bits.toBitVec) with zero | one
  · rw [zero]
    exact iff_of_false nofun nofun
  · rw [one]
    exact iff_of_true rfl rfl

theorem packComponents_unpack (b : BitVec Format.binary64.numBits) :
    packComponents .binary64 (.ofBitVec (unpackSign b)) (unpackExponent b) (unpackMantissa b) =
      b := by
  have sign : (Sign.ofBitVec (unpackSign b)).toBitVec = unpackSign b := by
    generalize unpackSign b = s
    revert s
    decide
  rw [packComponents, sign]
  refine BitVec.eq_of_getLsbD_eq fun i hi => ?_
  have : i < 64 := hi
  simp only [BitVec.getLsbD_append, unpackSign, unpackExponent, unpackMantissa, BitVec.getLsbD_cast,
    BitVec.getLsbD_extractLsb]
  by_cases low : i < 52
  · simp [low]
  · by_cases middle : i - 52 < 11
    · simp [low, middle]
      rw [show 52 + (i - 52) = i by omega]
    · obtain rfl : i = 63 := by omega
      rfl


/-! ### Subnormal doubles -/

theorem pack_subnormal {m : ℕ} (small : m < 2 ^ 52) (h : 0 < m) (sign : Sign) :
    UnpackedFloat.pack .binary64 (.finite sign m (-1074) h) =
      packComponents .binary64 sign 0#11 (BitVec.ofNat 52 m) := by
  have places : m.log2 < 52 := (Nat.log2_lt (by omega)).2 small
  have few : ¬ m.log2 + 1 = Format.binary64.mantissaBits := by
    show ¬ m.log2 + 1 = 53
    omega
  simp only [UnpackedFloat.pack]
  rw [if_neg (by decide), if_neg few]

theorem unpack_subnormal {m : ℕ} (small : m < 2 ^ 52) (h : 0 < m) (sign : Sign) :
    UnpackedFloat.unpack .binary64 (packComponents .binary64 sign 0#11 (BitVec.ofNat 52 m)) =
      .finite sign m (-1074) h := by
  have kept : (BitVec.ofNat 52 m).toNat = m := by
    rw [BitVec.toNat_ofNat]
    exact Nat.mod_eq_of_lt small
  have not_zero : BitVec.ofNat 52 m ≠ 0#52 := by
    intro zero
    rw [zero] at kept
    exact absurd kept (Nat.ne_of_lt h)
  have not_all : (0#11 : BitVec 11) ≠ -1#11 := by decide
  simp only [UnpackedFloat.unpack, unpackMantissa_packComponents, unpackExponent_packComponents,
    unpackSign_packComponents, Sign.ofBitVec_toBitVec, not_all, not_zero, ↓reduceIte, ↓reduceDIte,
    kept]
  rfl

/-! ### Bit patterns and values -/

theorem toNat_append (m : BitVec 52) : (1#1 ++ m).toNat = 2 ^ 52 + m.toNat := by
  rw [BitVec.toNat_append, ← Nat.shiftLeft_add_eq_or_of_lt m.isLt, Nat.shiftLeft_eq]
  rfl

theorem pack_unpack_packComponents (sign : Sign) (e : BitVec 11) (m : BitVec 52)
    (number : e = -1#11 → m = 0#52) :
    UnpackedFloat.pack .binary64 (UnpackedFloat.unpack .binary64
      (packComponents .binary64 sign e m)) = packComponents .binary64 sign e m := by
  -- An exponent that is all ones is that of infinity, and one of zeros that of zero and of the
  -- subnormal doubles; any other leaves out the first bit of the mantissa.
  by_cases all : e = -1#11
  · obtain rfl := number all
    subst all
    simp only [UnpackedFloat.unpack, unpackMantissa_packComponents, unpackExponent_packComponents,
      unpackSign_packComponents, Sign.ofBitVec_toBitVec, ↓reduceIte]
    rfl
  by_cases zero : e = 0#11
  · subst zero
    by_cases none : m = 0#52
    · subst none
      simp only [UnpackedFloat.unpack, unpackMantissa_packComponents,
        unpackExponent_packComponents, unpackSign_packComponents, Sign.ofBitVec_toBitVec, all,
        ↓reduceIte, ↓reduceDIte]
      rfl
    · have positive : 0 < m.toNat := Nat.pos_of_ne_zero fun h => none (BitVec.eq_of_toNat_eq h)
      have kept : BitVec.ofNat 52 m.toNat = m := by rw [BitVec.ofNat_toNat, BitVec.setWidth_eq]
      have value := unpack_subnormal m.isLt positive sign
      rw [kept] at value
      rw [value, pack_subnormal m.isLt, kept]
  · have not_all : e.toNat ≠ 2047 := fun h => all (BitVec.eq_of_toNat_eq h)
    have not_zero : e.toNat ≠ 0 := fun h => zero (BitVec.eq_of_toNat_eq h)
    have := e.isLt
    have := m.isLt
    have mantissa := toNat_append m
    have biased : BitVec.ofNat 11 ((e.toNat : ℤ) - 1075 + 1075).toNat = e := by
      rw [sub_add_cancel, Int.toNat_natCast, BitVec.ofNat_toNat, BitVec.setWidth_eq]
    have kept : BitVec.ofNat 52 (1#1 ++ m).toNat = m := by
      apply BitVec.eq_of_toNat_eq
      rw [BitVec.toNat_ofNat, mantissa]
      omega
    rw [unpack_packComponents m all zero, pack_eq (by omega) (by omega) (by omega),
      if_neg (by omega), biased, kept]

/-- **Unpacking** loses nothing. -/
theorem pack_unpack (f : Float.Model) : Float.Model.pack f.unpack = f := by
  obtain ⟨bits, valid⟩ := f
  have fields := packComponents_unpack bits.toBitVec
  suffices h : UnpackedFloat.pack .binary64 (UnpackedFloat.unpack .binary64 bits.toBitVec) =
      bits.toBitVec by
    simp only [Float.Model.pack, Float.Model.unpack, h]
  -- The bits of what is undefined are all the same, so they are as they were before.
  by_cases undefined : @unpackExponent .binary64 bits.toBitVec = -1#11 ∧
      @unpackMantissa .binary64 bits.toBitVec ≠ 0#52
  · rw [valid.eq_packedNaN undefined.1 undefined.2]
    simp only [UnpackedFloat.unpack, packedNaN, unpackMantissa_packComponents,
      unpackExponent_packComponents, ↓reduceIte]
    rfl
  · rw [← fields]
    exact pack_unpack_packComponents _ _ _ fun all => by
      by_contra other
      exact undefined ⟨all, other⟩

theorem ofModel_pack_unpack (x : Float) : Float.ofModel (.pack x.toModel.unpack) = x :=
  congrArg Float.ofModel (pack_unpack _)

end Rounding

namespace Decimal.Binary

open Rounding

theorem IsDouble.unpack_pack {x : Binary} (double : x.IsDouble) (sign : Sign) :
    (Float.Model.pack (.finite sign x.mantissa x.exponent double.positive)).unpack =
      .finite sign x.mantissa x.exponent double.positive := by
  obtain ⟨mantissa, exponent, narrow⟩ := x
  rcases Nat.lt_or_ge mantissa (2 ^ 52) with small | large
  · obtain rfl : exponent = -1074 := double.full.resolve_left (not_le.2 small)
    show UnpackedFloat.unpack .binary64 (UnpackedFloat.pack .binary64 _) = _
    rw [pack_subnormal small, unpack_subnormal small]
  · exact unpack_pack_of_normal large double.places double.least double.most _ sign

/-! ### What is read off the bits -/

/-- The sign of a value that has one. -/
inductive Signed (sign : Sign) : UnpackedFloat → Prop
  | infinity : Signed sign (.infinity sign)
  | zero : Signed sign (.zero sign)
  | finite {m : ℕ} {e : ℤ} (h : 0 < m) : Signed sign (.finite sign m e h)

theorem Signed.sign_bit {x : Float} {value : UnpackedFloat} {sign : Sign}
    (signed : Signed sign value) (unpacked : x.toModel.unpack = value) :
    x.toBits >>> 63 = 1 ↔ sign = .negative := by
  rw [← unpackSign_eq_one_iff x.toBits]
  suffices h : Sign.ofBitVec (@unpackSign .binary64 x.toBits.toBitVec) = sign by rw [h]
  have fields : UnpackedFloat.unpack .binary64 x.toBits.toBitVec = value := unpacked
  rw [← fields, UnpackedFloat.unpack] at signed
  simp only at signed
  split at signed
  · split at signed
    · cases signed; rfl
    · cases signed
  · split at signed
    · split at signed
      · cases signed; rfl
      · cases signed; rfl
    · cases signed; rfl

/-- The fields of the bits of a double that is zero or finite. -/
theorem ofBits_fields (bits : UInt64) :
    ofBits bits =
      if @unpackExponent .binary64 bits.toBitVec = 0#11 then
        ⟨(@unpackMantissa .binary64 bits.toBitVec).toNat, -1074, false⟩
      else
        ⟨2 ^ 52 + (@unpackMantissa .binary64 bits.toBitVec).toNat,
          (@unpackExponent .binary64 bits.toBitVec).toNat - 1075,
          (@unpackMantissa .binary64 bits.toBitVec).toNat = 0 ∧
            1 < (@unpackExponent .binary64 bits.toBitVec).toNat⟩ := by
  simp only [← BitVec.toNat_inj, ofBits, ← toNat_unpackExponent, ← toNat_unpackMantissa]
  rfl

theorem mantissa_ofBits {x : Float} {sign : Sign} (zero : x.toModel.unpack = .zero sign) :
    (ofBits x.toBits).mantissa = 0 := by
  have unpacked : x.toModel.unpack = UnpackedFloat.unpack .binary64 x.toBits.toBitVec := rfl
  rw [ofBits_fields]
  rw [unpacked, UnpackedFloat.unpack] at zero
  simp only at zero
  split at zero
  · split at zero <;> cases zero
  · split at zero
    next least =>
      split at zero
      next none => rw [if_pos least, none]; rfl
      next => cases zero
    next => cases zero

theorem isDouble_subnormal {f : ℕ} (positive : 0 < f) (small : f < 2 ^ 52) :
    IsDouble ⟨f, -1074, false⟩ where
  positive := positive
  places := by show f < 2 ^ 53; omega
  least := le_refl _
  most := by show (-1074 : ℤ) < 972; decide
  full := .inr rfl
  narrow_iff := iff_of_false Bool.false_ne_true fun h => lt_irrefl _ h.2

theorem isDouble_normal {e f : ℕ} (not_zero : e ≠ 0) (not_all : e < 2047) (small : f < 2 ^ 52) :
    IsDouble ⟨2 ^ 52 + f, (e : ℤ) - 1075, f = 0 ∧ 1 < e⟩ where
  positive := by show 0 < 2 ^ 52 + f; omega
  places := by show 2 ^ 52 + f < 2 ^ 53; omega
  least := by show -1074 ≤ (e : ℤ) - 1075; omega
  most := by show (e : ℤ) - 1075 < 972; omega
  full := .inl (Nat.le_add_right _ _)
  narrow_iff := by
    rw [decide_eq_true_iff]
    show f = 0 ∧ 1 < e ↔ 2 ^ 52 + f = 2 ^ 52 ∧ -1074 < (e : ℤ) - 1075
    omega

/-- The mantissa and the exponent that are read off the bits are those of the double. -/
theorem isDouble_ofBits {x : Float} {sign : Sign} {m : ℕ} {e : ℤ} {h : 0 < m}
    (finite : x.toModel.unpack = .finite sign m e h) :
    (ofBits x.toBits).mantissa = m ∧ (ofBits x.toBits).exponent = e ∧
      (ofBits x.toBits).IsDouble := by
  have unpacked : x.toModel.unpack = UnpackedFloat.unpack .binary64 x.toBits.toBitVec := rfl
  have exponent_lt := (@unpackExponent .binary64 x.toBits.toBitVec).isLt
  have mantissa_lt := (@unpackMantissa .binary64 x.toBits.toBitVec).isLt
  rw [ofBits_fields]
  rw [unpacked, UnpackedFloat.unpack] at finite
  simp only at finite
  split at finite
  · split at finite <;> cases finite
  next not_all =>
    split at finite
    next least =>
      split at finite
      · cases finite
      next some =>
        obtain ⟨-, rfl, rfl⟩ := UnpackedFloat.finite.inj finite
        rw [if_pos least, least]
        exact ⟨rfl, rfl, isDouble_subnormal h mantissa_lt⟩
    next above =>
      obtain ⟨-, rfl, rfl⟩ := UnpackedFloat.finite.inj finite
      rw [if_neg above]
      refine ⟨(toNat_append _).symm, rfl, isDouble_normal ?_ ?_ mantissa_lt⟩
      · exact fun zero => above (BitVec.eq_of_toNat_eq zero)
      · refine lt_of_le_of_ne (Nat.le_of_lt_succ exponent_lt) fun all => ?_
        exact not_all (BitVec.eq_of_toNat_eq all)

end Decimal.Binary

end SymbolTrees
