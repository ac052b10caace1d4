import SymbolTrees.Json.Writer
import SymbolTrees.Proofs.Decimal.Reading
import SymbolTrees.Proofs.Decimal.Shortest

/-!
# Numbers that are written are read back

A double is written with its shortest digits, with a point among or around them or with an exponent.
Whatever the layout, the digits and the exponent that are read stand for the same decimal, and that
lies around the double. An integer is read back unless it has more digits than are read.

Main statements: `Json.Reader.number?_int` and `Json.Reader.number?_float`.
-/

namespace SymbolTrees.Json.Reader

open Text Text.Integer Decimal

/-! ### What comes after a number -/

/-- No number goes on with this text. -/
inductive Stops : Text → Prop
  | nil : Stops []
  | comma (s : Text) : Stops (.char ',' :: s)
  | newline (s : Text) : Stops (.char '\n' :: s)

variable {rest : Text}

theorem Stops.takeWhile (stops : Stops rest) : rest.takeWhile isDigit = [] := by
  cases stops <;> rfl

theorem Stops.exponent? (stops : Stops rest) : exponent? rest = none := by
  cases stops <;> rfl

theorem Stops.fraction (stops : Stops rest) : fraction rest = ([], rest) := by
  cases stops <;> rfl

/-! ### Digits -/

/-- Digits. -/
def Digits (cs : List Char) : Prop := ∀ c ∈ cs, c.isDigit = true

theorem Digits.isDigit {cs : List Char} (digits : Digits cs) :
    ∀ g ∈ ofChars cs, isDigit g = true := by
  intro g hg
  obtain ⟨c, hc, rfl⟩ := List.mem_map.1 hg
  exact digits c hc

theorem digits_fill (n : ℕ) : Digits (fill n) := by
  intro c hc
  rw [List.eq_of_mem_replicate hc]
  rfl

theorem digits_append {cs ds : List Char} (hc : Digits cs) (hd : Digits ds) : Digits (cs ++ ds) :=
  fun c h => (List.mem_append.1 h).elim (hc c) (hd c)

theorem takeWhile_digits {cs : List Char} (digits : Digits cs)
    (ends : rest.takeWhile isDigit = []) :
    (ofChars cs ++ rest).takeWhile isDigit = ofChars cs ∧
      (ofChars cs ++ rest).dropWhile isDigit = rest := by
  have kept := List.takeWhile_append_dropWhile (p := isDigit) (l := rest)
  rw [ends, List.nil_append] at kept
  rw [List.takeWhile_append_of_pos digits.isDigit, List.dropWhile_append_of_pos digits.isDigit,
    ends, List.append_nil]
  exact ⟨rfl, kept⟩

theorem ofDigits_digitsOf (cs : List Char) :
    ofDigits (digitsOf (ofChars cs)) = Nat.ofDigitChars 10 cs 0 := by
  rw [ofDigits, digitsOf, ofChars, List.map_map, List.foldl_map, Nat.ofDigitChars_eq_foldl]
  rfl

theorem digitsOf_lt {s : Text} (digits : ∀ g ∈ s, isDigit g = true) :
    ∀ d ∈ digitsOf s, d < 10 := by
  intro d hd
  obtain ⟨g, hg, rfl⟩ := List.mem_map.1 hd
  have digit := digits g hg
  cases g with
  | half n => cases digit
  | char c =>
    have range : c.isDigit = true := digit
    simp only [Char.isDigit, Bool.and_eq_true, decide_eq_true_eq, UInt32.le_iff_toNat_le] at range
    have most : c.toNat ≤ 57 := range.2
    show c.toNat - 48 < 10
    omega

/-- Digits before a point or at the end: a zero alone, or digits that do not start with one. -/
inductive Whole : List Char → Prop
  | zero : Whole ['0']
  | digits {c : Char} {cs : List Char} (first : c ≠ '0') (digits : Digits (c :: cs)) :
    Whole (c :: cs)

theorem Whole.allDigits {cs : List Char} (whole : Whole cs) : Digits cs := by
  cases whole with
  | zero => intro c hc; rw [List.mem_singleton.1 hc]; rfl
  | digits first digits => exact digits

theorem Whole.whole? {cs : List Char} (whole : Whole cs) {rest : Text}
    (ends : rest.takeWhile isDigit = []) :
    whole? (ofChars cs ++ rest) = some (ofChars cs, rest) := by
  cases whole with
  | zero => rfl
  | @digits c cs first digits =>
    have both := takeWhile_digits digits ends
    unfold Reader.whole?
    split
    next other heq =>
      cases heq
      exact absurd rfl first
    next =>
      simp only [both.1, both.2]
      rfl

/-! ### Parts of a number -/

theorem isEmpty_ofChars {cs : List Char} (filled : cs ≠ []) : (ofChars cs).isEmpty = false := by
  cases cs with
  | nil => exact absurd rfl filled
  | cons => rfl

theorem fraction_point {cs : List Char} (digits : Digits cs) (filled : cs ≠ [])
    (ends : rest.takeWhile isDigit = []) :
    fraction (.char '.' :: (ofChars cs ++ rest)) = (ofChars cs, rest) := by
  have both := takeWhile_digits digits ends
  simp only [fraction, both.1, both.2, isEmpty_ofChars filled]
  rfl

theorem exponent?_append {cs : List Char} (digits : Digits cs) (filled : cs ≠ [])
    (ends : rest.takeWhile isDigit = []) (negative : Bool) :
    exponent? (.char 'e' :: .char (if negative then '-' else '+') :: (ofChars cs ++ rest)) =
      some (if negative then -(Nat.ofDigitChars 10 cs 0 : ℤ) else Nat.ofDigitChars 10 cs 0,
        rest) := by
  have both := takeWhile_digits digits ends
  cases negative <;>
    simp [exponent?, both.1, both.2, isEmpty_ofChars filled, ofDigits_digitsOf]

/-! ### Numbers without a sign -/

theorem unsigned?_int {whole : List Char} (starts : Whole whole) (stops : Stops rest)
    (short : whole.length ≤ maxDigits) :
    unsigned? (ofChars whole ++ rest) = some (.int (Nat.ofDigitChars 10 whole 0 : ℕ), rest) := by
  have fits : ¬ maxDigits < (ofChars whole).length := by
    rw [ofChars, List.length_map]
    exact not_lt.2 short
  simp only [unsigned?, starts.whole? stops.takeWhile, stops.fraction, stops.exponent?,
    Option.bind_eq_bind, Option.bind_some, if_neg fits, ofDigits_digitsOf]

theorem Whole.point {cs : List Char} (whole : Whole cs) (s : Text) :
    Reader.whole? (ofChars cs ++ .char '.' :: s) = some (ofChars cs, .char '.' :: s) :=
  whole.whole? rfl

theorem unsigned?_point {whole places : List Char} (starts : Whole whole) (digits : Digits places)
    (filled : places ≠ []) (stops : Stops rest) :
    unsigned? (ofChars whole ++ .char '.' :: (ofChars places ++ rest)) =
      some (.float (decimal (digitsOf (ofChars (whole ++ places))) (-places.length)), rest) := by
  have point := starts.point (ofChars places ++ rest)
  have joined : ofChars whole ++ ofChars places = ofChars (whole ++ places) :=
    List.map_append.symm
  have length : (ofChars places).length = places.length := List.length_map _
  cases places with
  | nil => exact absurd rfl filled
  | cons c cs =>
    simp only [unsigned?, point, fraction_point digits filled stops.takeWhile, stops.exponent?,
      Option.bind_eq_bind, Option.bind_some, joined, length]
    rfl

theorem unsigned?_exponent {whole places exponent : List Char} (starts : Whole whole)
    (digits : Digits places) (digits' : Digits exponent) (filled : exponent ≠ [])
    (stops : Stops rest) (negative : Bool) :
    unsigned? (ofChars whole ++ ((if places = [] then [] else .char '.' :: ofChars places) ++
      .char 'e' :: .char (if negative then '-' else '+') :: (ofChars exponent ++ rest))) =
      some (.float (decimal (digitsOf (ofChars (whole ++ places)))
        ((if negative then -(Nat.ofDigitChars 10 exponent 0 : ℤ)
          else Nat.ofDigitChars 10 exponent 0) - places.length)), rest) := by
  have joined : ofChars whole ++ ofChars places = ofChars (whole ++ places) :=
    List.map_append.symm
  have length : (ofChars places).length = places.length := List.length_map _
  have tail := exponent?_append digits' filled stops.takeWhile negative
  generalize after : (.char 'e' :: .char (if negative then '-' else '+') ::
    (ofChars exponent ++ rest) : Text) = s at tail ⊢
  have ends : s.takeWhile isDigit = [] := by rw [← after]; rfl
  cases places with
  | nil =>
    have none : fraction s = ([], s) := by rw [← after]; rfl
    rw [if_pos rfl, List.nil_append]
    simp only [unsigned?, starts.whole? ends, none, tail, Option.bind_eq_bind, Option.bind_some,
      List.append_nil, List.length_nil]
  | cons c cs =>
    have point := starts.point (ofChars (c :: cs) ++ s)
    rw [if_neg (List.cons_ne_nil c cs), List.cons_append]
    simp only [unsigned?, point, fraction_point digits (List.cons_ne_nil c cs) ends, tail,
      Option.bind_eq_bind, Option.bind_some, joined, length]

/-! ### The layout of a double -/

/-- The digits of a positive integer do not start with a zero. -/
theorem toDigits_first {n : ℕ} (positive : 0 < n) :
    ∃ c cs, Nat.toDigits 10 n = c :: cs ∧ c ≠ '0' ∧ Digits (c :: cs) := by
  induction n using Nat.strongRecOn with
  | ind n ih =>
    have digits : Digits (Nat.toDigits 10 n) := fun c hc =>
      Nat.isDigit_of_mem_toDigits (by decide) (by decide) hc
    by_cases small : n < 10
    · rw [Nat.toDigits_of_lt_base small] at digits ⊢
      refine ⟨_, [], rfl, ?_, digits⟩
      rw [ne_eq, Nat.digitChar_eq_zero]
      omega
    · obtain ⟨c, cs, front, first, -⟩ := ih (n / 10) (by omega) (by omega)
      rw [Nat.toDigits_of_base_le (by decide) (not_lt.1 small), front] at digits ⊢
      exact ⟨c, _, rfl, first, digits⟩

/-- Whatever follows, the characters are read as a decimal with that value. -/
def Reads (cs : List Char) (v : ℚ) : Prop :=
  ∀ rest, Stops rest → ∃ digits exponent,
    unsigned? (ofChars cs ++ rest) = some (.float (decimal digits exponent), rest) ∧
    (∀ n ∈ digits, n < 10) ∧ (ofDigits digits * 10 ^ exponent : ℚ) = v

theorem reads_point {whole places : List Char} (starts : Whole whole) (digits : Digits places)
    (filled : places ≠ []) :
    Reads (whole ++ '.' :: places)
      (Nat.ofDigitChars 10 (whole ++ places) 0 * 10 ^ (-places.length : ℤ)) := by
  intro rest stops
  refine ⟨_, _, ?_, digitsOf_lt (digits_append starts.allDigits digits).isDigit,
    by rw [ofDigits_digitsOf]⟩
  rw [← unsigned?_point starts digits filled stops]
  simp only [ofChars, List.map_append, List.map_cons, List.append_assoc, List.cons_append]

theorem reads_exponent {whole places exponent : List Char} (starts : Whole whole)
    (digits : Digits places) (digits' : Digits exponent) (filled : exponent ≠ [])
    (negative : Bool) :
    Reads (whole ++ ((if places = [] then [] else '.' :: places) ++
        'e' :: (if negative then '-' else '+') :: exponent))
      (Nat.ofDigitChars 10 (whole ++ places) 0 *
        10 ^ ((if negative then -(Nat.ofDigitChars 10 exponent 0 : ℤ)
          else Nat.ofDigitChars 10 exponent 0) - places.length)) := by
  intro rest stops
  refine ⟨_, _, ?_, digitsOf_lt (digits_append starts.allDigits digits).isDigit,
    by rw [ofDigits_digitsOf]⟩
  rw [← unsigned?_exponent starts digits digits' filled stops negative]
  simp only [ofChars, List.map_append, List.map_cons, List.append_assoc, List.cons_append,
    apply_ite (List.map Glyph.char), List.map_nil]

theorem ofDigitChars_fill_append (n : ℕ) (cs : List Char) :
    Nat.ofDigitChars 10 (fill n ++ cs) 0 = Nat.ofDigitChars 10 cs 0 := by
  rw [Nat.ofDigitChars_append, fill, Nat.ofDigitChars_replicate_zero, Nat.mul_zero]

section Positions

variable {c : Char} {cs : List Char}

/-- The point after the digits, with zeros between them. -/
theorem reads_after (first : c ≠ '0') (digits : Digits (c :: cs)) (e : ℕ) :
    Reads ((c :: cs) ++ fill e ++ ['.', '0'])
      (Nat.ofDigitChars 10 (c :: cs) 0 * 10 ^ (e : ℤ)) := by
  have starts : Whole (c :: cs ++ fill e) := .digits first (digits_append digits (digits_fill e))
  have value : (Nat.ofDigitChars 10 ((c :: cs ++ fill e) ++ fill 1) 0 *
      10 ^ (-(fill 1).length : ℤ) : ℚ) = Nat.ofDigitChars 10 (c :: cs) 0 * 10 ^ (e : ℤ) := by
    rw [Nat.ofDigitChars_append, Nat.ofDigitChars_append, fill, fill,
      Nat.ofDigitChars_replicate_zero, Nat.ofDigitChars_replicate_zero, List.length_replicate,
      zpow_neg, zpow_natCast, zpow_natCast]
    push_cast
    field_simp
  exact value ▸ reads_point starts (digits_fill 1) (List.cons_ne_nil _ _)

/-- The point inside the digits. -/
theorem reads_inside (first : c ≠ '0') (digits : Digits (c :: cs)) {k : ℕ}
    (inside : k + 1 < (c :: cs).length) :
    Reads ((c :: cs).take (k + 1) ++ '.' :: (c :: cs).drop (k + 1))
      (Nat.ofDigitChars 10 (c :: cs) 0 * 10 ^ (-((c :: cs).length - (k + 1) : ℕ) : ℤ)) := by
  have starts : Whole ((c :: cs).take (k + 1)) :=
    .digits first fun g hg => digits g (List.mem_of_mem_take (List.take_succ_cons ▸ hg))
  have places : Digits ((c :: cs).drop (k + 1)) :=
    fun g hg => digits g (List.mem_of_mem_drop hg)
  have filled : (c :: cs).drop (k + 1) ≠ [] := by
    rw [ne_eq, List.drop_eq_nil_iff]
    omega
  have reads := reads_point starts places filled
  rw [List.take_append_drop, List.length_drop] at reads
  exact reads

/-- The point before the digits, with zeros between them. -/
theorem reads_before (digits : Digits (c :: cs)) (k : ℕ) :
    Reads ('0' :: '.' :: fill k ++ c :: cs)
      (Nat.ofDigitChars 10 (c :: cs) 0 * 10 ^ (-(k + (c :: cs).length : ℕ) : ℤ)) := by
  have reads := reads_point .zero (digits_append (digits_fill k) digits)
    (List.append_ne_nil_of_right_ne_nil _ (List.cons_ne_nil c cs))
  rw [show ['0'] = fill 1 from rfl, ofDigitChars_fill_append, ofDigitChars_fill_append,
    List.length_append, fill, fill, List.length_replicate] at reads
  exact reads

end Positions

theorem reads_positional {d : Scaled} (positive : 0 < d.digits) :
    Reads (positional d) d.value := by
  obtain ⟨c, cs, digits_eq, first, digits⟩ := toDigits_first positive
  have value : Nat.ofDigitChars 10 (c :: cs) 0 = d.digits := by
    rw [← digits_eq, Nat.ofDigitChars_ten_toDigits]
  unfold positional Scaled.value
  simp only [digits_eq]
  rw [← value]
  split
  next integral =>
    have reads := reads_after first digits d.exponent.toNat
    rw [Int.toNat_of_nonneg integral] at reads
    exact reads
  next fractional =>
    split
    next inside =>
      obtain ⟨k, hk⟩ : ∃ k : ℕ, ((c :: cs).length + d.exponent).toNat = k + 1 :=
        ⟨((c :: cs).length + d.exponent).toNat - 1, by omega⟩
      have reads := reads_inside first digits (show k + 1 < (c :: cs).length by omega)
      have exponent : (-((c :: cs).length - (k + 1) : ℕ) : ℤ) = d.exponent := by omega
      rw [exponent] at reads
      rw [hk]
      exact reads
    next before =>
      have reads := reads_before digits (-((c :: cs).length + d.exponent)).toNat
      have exponent : (-((-((c :: cs).length + d.exponent)).toNat + (c :: cs).length : ℕ) : ℤ) =
          d.exponent := by omega
      rw [exponent] at reads
      exact reads

theorem reads_scientific (layout : Layout) {d : Scaled} (positive : 0 < d.digits) :
    Reads (scientific layout d) d.value := by
  obtain ⟨c, cs, digits_eq, first, digits⟩ := toDigits_first positive
  have value : Nat.ofDigitChars 10 (c :: cs) 0 = d.digits := by
    rw [← digits_eq, Nat.ofDigitChars_ten_toDigits]
  have starts : Whole [c] := .digits first fun g hg =>
    digits g (List.mem_cons.2 (.inl (List.mem_singleton.1 hg)))
  have places : Digits cs := fun g hg => digits g (List.mem_cons_of_mem _ hg)
  unfold scientific
  simp only [digits_eq, List.length_cons]
  generalize he : d.exponent + ((cs.length + 1 : ℕ) : ℤ) - 1 = e
  have written : Digits (Nat.toDigits 10 e.natAbs) := fun g hg =>
    Nat.isDigit_of_mem_toDigits (by decide) (by decide) hg
  generalize hk : layout.exponentWidth - (Nat.toDigits 10 e.natAbs).length = k
  have reads := reads_exponent starts places (digits_append (digits_fill k) written)
    (List.append_ne_nil_of_right_ne_nil _ Nat.toDigits_ne_nil) (decide (e < 0))
  have exponent : (if decide (e < 0) = true then -(e.natAbs : ℤ) else e.natAbs) - cs.length =
      d.exponent := by
    rw [Decimal.Binary.signed_natAbs]
    omega
  rw [ofDigitChars_fill_append, Nat.ofDigitChars_ten_toDigits, exponent,
    show [c] ++ cs = c :: cs from rfl, value] at reads
  convert reads using 1
  · cases cs <;> simp
  · rfl

theorem reads_digits (layout : Layout) {d : Scaled} (positive : 0 < d.digits) :
    Reads (layout.digits d) d.value := by
  unfold Layout.digits
  simp only
  split
  · exact reads_positional positive
  · exact reads_scientific layout positive

/-! ### Signs -/

/-- A number without a sign starts with a digit. -/
theorem digit_of_unsigned? {s : Text} {r : Number × Text} (read : unsigned? s = some r) :
    ∃ c t, s = .char c :: t ∧ c.isDigit = true := by
  have some_whole : ∃ w, whole? s = some w := by
    cases h : whole? s with
    | none => simp [unsigned?, h] at read
    | some w => exact ⟨w, rfl⟩
  obtain ⟨w, hw⟩ := some_whole
  unfold whole? at hw
  split at hw
  next t => exact ⟨'0', t, rfl, rfl⟩
  next =>
    cases s with
    | nil => simp at hw
    | cons g t =>
      by_cases digit : isDigit g = true
      · cases g with
        | char c => exact ⟨c, t, rfl, digit⟩
        | half n => cases digit
      · simp [digit] at hw

/-- A number is read with the sign before it. -/
theorem number?_signed {cs : List Char} {n : Number} (negative : Prop) [Decidable negative]
    (read : unsigned? (ofChars cs ++ rest) = some (n, rest)) :
    number? (ofChars ((if negative then ['-'] else []) ++ cs) ++ rest) =
      some (if negative then negate n else n, rest) := by
  split
  next =>
    show (unsigned? (ofChars cs ++ rest)).map _ = _
    rw [read]
    rfl
  next =>
    obtain ⟨c, t, starts, digit⟩ := digit_of_unsigned? read
    have not_minus : ∀ s, Glyph.char c :: t ≠ .char '-' :: s := by
      rintro s ⟨⟩
      cases digit
    rw [List.nil_append, ← read, starts, number?]
    exact not_minus

/-! ### Integers -/

/-- An integer that is not longer than those that are read. -/
def Short (n : ℤ) : Prop := (Nat.toDigits 10 n.natAbs).length ≤ maxDigits

theorem whole_toDigits (n : ℕ) : Whole (Nat.toDigits 10 n) := by
  rcases Nat.eq_zero_or_pos n with rfl | positive
  · exact .zero
  · obtain ⟨c, cs, digits_eq, first, digits⟩ := toDigits_first positive
    rw [digits_eq]
    exact .digits first digits

theorem toList_int (n : ℤ) :
    (Writer.number (.int n)).toList =
      (if n < 0 then ['-'] else []) ++ Nat.toDigits 10 n.natAbs := by
  rw [Writer.number, Int.toString_eq_repr, Int.repr_eq_if]
  rcases Int.lt_or_le n 0 with negative | nonneg
  · have abs : (-n).toNat = n.natAbs := by omega
    rw [if_neg (not_le.2 negative), if_pos negative, String.toList_append, Nat.toList_repr, abs]
    rfl
  · have abs : n.toNat = n.natAbs := by omega
    rw [if_pos nonneg, if_neg (not_lt.2 nonneg), Nat.toList_repr, abs]
    rfl

theorem number?_int {n : ℤ} (short : Short n) (stops : Stops rest) :
    number? (ofString (Writer.number (.int n)) ++ rest) = some (.int n, rest) := by
  have read := number?_signed (n < 0) (unsigned?_int (whole_toDigits n.natAbs) stops short)
  rw [← toList_int, Nat.ofDigitChars_ten_toDigits] at read
  have value : (if n < 0 then negate (.int n.natAbs) else .int n.natAbs) = Number.int n := by
    split
    next negative => exact congrArg Number.int (by omega)
    next nonneg => exact congrArg Number.int (by omega)
  rw [value] at read
  exact read

/-! ### Doubles -/

theorem neg_toFloat {x : Binary} (double : x.IsDouble) :
    -double.toFloat =
      .ofModel (.pack (.finite .negative x.mantissa x.exponent double.positive)) := by
  show Float.ofModel (.pack ((Float.Model.pack _).unpack.neg)) = _
  rw [double.unpack_pack]
  rfl

/-- The characters of a double that is zero or finite. -/
theorem toList_float {x : Float} (number : x.isNaN = false) (finite : x.isInf = false) :
    (Writer.number (.float x)).toList = (if x.toBits >>> 63 = 1 then ['-'] else []) ++
      if (Binary.ofBits x.toBits).mantissa = 0 then ['0', '.', '0']
      else Writer.numbers.digits (Binary.ofBits x.toBits).shortest := by
  have sign : (if x.toBits >>> 63 = 1 then "-" else "").toList =
      if x.toBits >>> 63 = 1 then ['-'] else [] := by split <;> rfl
  rw [Writer.number, Layout.text, if_neg (by rw [number]; decide), if_neg (by rw [finite]; decide)]
  simp only
  split
  · rw [String.toList_append, sign]
    rfl
  · rw [String.toList_append, sign, String.toList_ofList]

theorem positive_of_covers {x : Binary} {d : Scaled} (covers : x.Covers d.value)
    (double : x.IsDouble) : 0 < d.digits := by
  refine Nat.pos_of_ne_zero fun zero => ?_
  have positive := covers.pos double
  rw [Scaled.value, zero, Nat.cast_zero, zero_mul] at positive
  exact lt_irrefl _ positive

theorem number?_float {x : Float} (number : x.isNaN = false) (finite : x.isInf = false)
    (stops : Stops rest) :
    number? (ofString (Writer.number (.float x)) ++ rest) = some (.float x, rest) := by
  have model := Rounding.ofModel_pack_unpack x
  have number' : x.toModel.unpack.isNaN = false := number
  have finite' : x.toModel.unpack.isInf = false := finite
  rw [ofString, toList_float number finite]
  cases unpacked : x.toModel.unpack with
  | notANumber => rw [unpacked] at number'; cases number'
  | infinity sign => rw [unpacked] at finite'; cases finite'
  | zero sign =>
    -- No digits lie around a zero: its text is a word of its own, and its sign comes with it.
    have negative := (Binary.Signed.zero : Binary.Signed sign _).sign_bit unpacked
    have read : unsigned? (ofChars ['0', '.', '0'] ++ rest) = some (.float 0, rest) :=
      unsigned?_point .zero (digits_fill 1) (List.cons_ne_nil _ _) stops
    rw [if_pos (Binary.mantissa_ofBits unpacked), number?_signed _ read]
    rw [unpacked] at model
    cases sign with
    | positive =>
      rw [if_neg (by rw [negative]; rintro ⟨⟩), ← model]
      rfl
    | negative =>
      rw [if_pos (by rw [negative]), ← model]
      rfl
  | finite sign m e h =>
    have negative := (Binary.Signed.finite h : Binary.Signed sign _).sign_bit unpacked
    obtain ⟨rfl, rfl, double⟩ := Binary.isDouble_ofBits unpacked
    have covers := Binary.covers_shortest h
    rw [if_neg (Nat.ne_of_gt h)]
    generalize (Binary.ofBits x.toBits).shortest = d at covers ⊢
    obtain ⟨digits, exponent, read, small, amount⟩ :=
      reads_digits Writer.numbers (positive_of_covers covers double) rest stops
    rw [← amount] at covers
    rw [covers.decimal double small] at read
    rw [number?_signed _ read]
    rw [unpacked] at model
    cases sign with
    | positive =>
      rw [if_neg (by rw [negative]; rintro ⟨⟩)]
      exact congrArg (fun y => some (Number.float y, rest)) model
    | negative =>
      rw [if_pos (by rw [negative]), negate, neg_toFloat]
      exact congrArg (fun y => some (Number.float y, rest)) model

/-! ### What was read -/

theorem suffix_of_whole? {s ds : Text} (read : whole? s = some (ds, rest)) :
    rest <:+ s ∧ ds ≠ [] ∧ ∀ g ∈ ds, isDigit g = true := by
  unfold whole? at read
  split at read
  next t =>
    cases read
    exact ⟨⟨[.char '0'], rfl⟩, List.cons_ne_nil _ _, (digits_fill 1).isDigit⟩
  next =>
    simp only at read
    split at read
    · cases read
    next filled =>
      cases read
      refine ⟨List.dropWhile_suffix _, fun empty => filled ?_, fun g hg => ?_⟩
      · rw [empty]
        rfl
      · exact List.mem_takeWhile_imp hg

theorem suffix_fraction (s : Text) : (fraction s).2 <:+ s := by
  unfold fraction
  split
  next t =>
    simp only
    split
    · exact List.suffix_refl _
    · exact (List.dropWhile_suffix _).trans (List.suffix_cons _ _)
  next => exact List.suffix_refl _

theorem suffix_of_exponent? {s : Text} {e : ℤ} (read : exponent? s = some (e, rest)) :
    rest <:+ s := by
  have after (t : Text) : t.dropWhile isDigit <:+ t := List.dropWhile_suffix _
  unfold exponent? at read
  split at read
  next c t =>
    split at read
    next =>
      simp only [Option.ite_none_left_eq_some, Option.some.injEq, Prod.mk.injEq] at read
      obtain ⟨-, -, rfl⟩ := read
      refine ((after _).trans ?_).trans (List.suffix_cons _ _)
      split
      · exact List.suffix_cons _ _
      · exact List.suffix_cons _ _
      · exact List.suffix_refl _
    next => cases read
  next => cases read

theorem short_ofDigits {s : Text} (filled : s ≠ []) (digits : ∀ g ∈ s, isDigit g = true)
    (fits : ¬ maxDigits < s.length) : Short (ofDigits (digitsOf s) : ℕ) := by
  have below := Decimal.Binary.ofDigits_lt (digitsOf_lt digits)
  have length : (digitsOf s).length = s.length := List.length_map _
  rw [length] at below
  have short := (Nat.length_toDigits_le_iff (by decide) (List.length_pos_iff.2 filled)).2 below
  exact short.trans (not_lt.1 fits)

/-- What is left of a number that was read; an integer is not longer than those that are read. -/
theorem suffix_of_unsigned? {s : Text} {n : Number} (read : unsigned? s = some (n, rest)) :
    rest <:+ s ∧ ∀ k, n = .int k → Short k := by
  simp only [unsigned?, Option.bind_eq_bind, Option.bind_eq_some_iff] at read
  obtain ⟨⟨ds, after⟩, whole, read⟩ := read
  obtain ⟨suffix, filled, digits⟩ := suffix_of_whole? whole
  have point := (suffix_fraction after).trans suffix
  simp only at read
  split at read
  next =>
    split at read
    · cases read
    next fits =>
      cases read
      refine ⟨point, ?_⟩
      rintro k ⟨⟩
      exact short_ofDigits filled digits fits
  next =>
    cases read
    exact ⟨point, nofun⟩
  next exponent =>
    cases read
    exact ⟨(suffix_of_exponent? exponent).trans point, nofun⟩

theorem suffix_of_number? {s : Text} {n : Number} (read : number? s = some (n, rest)) :
    rest <:+ s ∧ ∀ k, n = .int k → Short k := by
  unfold number? at read
  split at read
  next t =>
    obtain ⟨⟨m, after⟩, unsigned, place⟩ := Option.map_eq_some_iff.1 read
    obtain ⟨suffix, short⟩ := suffix_of_unsigned? unsigned
    cases place
    refine ⟨suffix.trans (List.suffix_cons _ _), ?_⟩
    cases m with
    | int k =>
      rintro _ ⟨⟩
      have same : Short (-k) ↔ Short k := by rw [Short, Short, Int.natAbs_neg]
      exact same.2 (short k rfl)
    | float x => exact nofun
  next => exact suffix_of_unsigned? read

end SymbolTrees.Json.Reader
