import Mathlib
import SymbolTrees.Json.Reader
import SymbolTrees.Json.Writer

/-!
# Texts that are written are read back

Every place of a text is written so that it is read back alone, whatever follows it. There is one
exception: the escapes of the two halves of a surrogate pair next to each other are read as one
character. A text that is read from characters never holds two such halves, so that it can be
written.

Main statements: `Json.Reader.text?_text` and `Json.Reader.parted_of_text?`.
-/

namespace SymbolTrees.Json.Reader

open Text Writer

/-! ### Escapes of four digits -/

theorem hexDigit?_digitChar : ∀ d < 16, hexDigit? (Nat.digitChar d) = some d := by
  decide

theorem toDigits_append {n : ℕ} (large : 16 ≤ n) :
    Nat.toDigits 16 n = Nat.toDigits 16 (n / 16) ++ [Nat.digitChar (n % 16)] :=
  Nat.toDigits_of_base_le (by decide) large

theorem unit_eq {n : ℕ} (small : n < 0x10000) :
    unit n = ['\\', 'u', Nat.digitChar (n / 4096), Nat.digitChar (n / 256 % 16),
      Nat.digitChar (n / 16 % 16), Nat.digitChar (n % 16)] := by
  have one {k : ℕ} (h : k < 16) : Nat.toDigits 16 k = [Nat.digitChar k] :=
    Nat.toDigits_of_lt_base h
  have zero : Nat.digitChar 0 = '0' := rfl
  unfold unit
  by_cases h₁ : n < 16
  · rw [one h₁, show n / 4096 = 0 by omega, show n / 256 % 16 = 0 by omega,
      show n / 16 % 16 = 0 by omega, show n % 16 = n by omega, zero]
    rfl
  rw [toDigits_append (not_lt.1 h₁)]
  by_cases h₂ : n / 16 < 16
  · rw [one h₂, show n / 4096 = 0 by omega, show n / 256 % 16 = 0 by omega,
      show n / 16 % 16 = n / 16 by omega, zero]
    rfl
  rw [toDigits_append (not_lt.1 h₂), Nat.div_div_eq_div_mul]
  by_cases h₃ : n / (16 * 16) < 16
  · rw [one h₃, show n / 4096 = 0 by omega, show n / 256 % 16 = n / (16 * 16) by omega, zero]
    rfl
  rw [toDigits_append (not_lt.1 h₃), Nat.div_div_eq_div_mul, one (by omega)]
  rfl

theorem unit?_unit {n : ℕ} (small : n < 0x10000) (rest : Text) :
    unit? (ofChars ((unit n).drop 2) ++ rest) = some (n, rest) := by
  rw [unit_eq small]
  simp only [List.drop_succ_cons, List.drop_zero, ofChars, List.map_cons, List.map_nil,
    List.cons_append, List.nil_append, unit?]
  rw [hexDigit?_digitChar _ (by omega), hexDigit?_digitChar _ (by omega),
    hexDigit?_digitChar _ (by omega), hexDigit?_digitChar _ (by omega)]
  refine congrArg (fun k => some (k, rest)) ?_
  omega

theorem oneGlyph?_unit {n : ℕ} (small : n < 0x10000) (rest : Text) :
    oneGlyph? (ofChars (unit n) ++ rest) = some (glyph n rest) := by
  show (unit? (ofChars ((unit n).drop 2) ++ rest)).map (fun r => glyph r.1 r.2) = _
  rw [unit?_unit small]
  rfl

theorem lowHalf?_unit {n : ℕ} (small : n < 0x10000) (rest : Text) :
    lowHalf? (ofChars (unit n) ++ rest) =
      if 0xDC00 ≤ n ∧ n < 0xE000 then some (n, rest) else none := by
  show (unit? (ofChars ((unit n).drop 2) ++ rest)).bind _ = _
  rw [unit?_unit small]
  rfl

/-! ### Characters -/

/-- How a character is written. -/
inductive Encoded (c : Char) : List Char → Prop
  | escape {e : Char} (h : plainEscape? e = some c) : Encoded c ['\\', e]
  | plain (h : ' ' ≤ c ∧ c ≤ '~') (no_quote : c ≠ '"') (no_escape : c ≠ '\\') : Encoded c [c]
  | units : Encoded c (units c.toNat)

theorem encoded (c : Char) : Encoded c (encodeChar c) := by
  unfold encodeChar
  split
  next special =>
    rw [Bool.or_eq_true, beq_iff_eq, beq_iff_eq] at special
    rcases special with rfl | rfl
    · exact .escape rfl
    · exact .escape rfl
  next special =>
    rw [Bool.or_eq_true, beq_iff_eq, beq_iff_eq, not_or] at special
    split
    next h => rw [beq_iff_eq] at h; subst h; exact .escape rfl
    split
    next h => rw [beq_iff_eq] at h; subst h; exact .escape rfl
    split
    next h => rw [beq_iff_eq] at h; subst h; exact .escape rfl
    split
    next h => rw [beq_iff_eq] at h; subst h; exact .escape rfl
    split
    next h => rw [beq_iff_eq] at h; subst h; exact .escape rfl
    split
    next printable => exact .plain printable special.1 special.2
    next => exact .units

theorem not_surrogate (c : Char) : ¬ (0xD800 ≤ c.toNat ∧ c.toNat < 0xE000) := by
  have valid : c.toNat < 0xD800 ∨ (0xDFFF < c.toNat ∧ c.toNat < 0x110000) := c.valid
  omega

theorem toNat_lt (c : Char) : c.toNat < 0x110000 := by
  have valid : c.toNat < 0xD800 ∨ (0xDFFF < c.toNat ∧ c.toNat < 0x110000) := c.valid
  omega

theorem glyph_of_not_high {n : ℕ} (not_high : ¬ (0xD800 ≤ n ∧ n < 0xDC00)) (rest : Text) :
    glyph n rest = (.ofCode n, rest) := by
  simp only [glyph, if_neg not_high]

theorem glyph_of_alone {n : ℕ} {rest : Text} (alone : lowHalf? rest = none) :
    glyph n rest = (.ofCode n, rest) := by
  simp only [glyph, alone, ite_self]

theorem Encoded.oneGlyph? {c : Char} {cs : List Char} (encoded : Encoded c cs) (rest : Text) :
    oneGlyph? (ofChars cs ++ rest) = some (.char c, rest) := by
  have code := Glyph.ofCode_code (.char c)
  have range := toNat_lt c
  have single := not_surrogate c
  cases encoded with
  | @escape e h =>
    have not_unit : e ≠ 'u' := by
      rintro rfl
      cases h
    show Reader.oneGlyph? (.char '\\' :: .char e :: rest) = _
    rw [Reader.oneGlyph?, h]
    · rfl
    · exact not_unit
  | plain h no_quote no_escape =>
    have visible : ¬ (Glyph.char c).code < 0x20 := by
      have : 0x20 ≤ c.toNat := h.1
      exact not_lt.2 this
    show Reader.oneGlyph? (.char c :: rest) = _
    rw [Reader.oneGlyph?, if_neg visible]
    · rintro s ⟨⟩
      exact absurd rfl no_escape
    · rintro e s ⟨⟩
      exact absurd rfl no_escape
    · rintro ⟨⟩
      exact no_quote rfl
    · rintro ⟨⟩
      exact no_escape rfl
  | units =>
    unfold Writer.units
    split
    next small =>
      rw [oneGlyph?_unit small, glyph_of_not_high (by omega)]
      exact congrArg (fun g => some (g, rest)) code
    next large =>
      have joined : 0x10000 + (0xD800 + (c.toNat - 0x10000) / 0x400 - 0xD800) * 0x400 +
          (0xDC00 + (c.toNat - 0x10000) % 0x400 - 0xDC00) = c.toNat := by omega
      rw [ofChars, List.map_append, List.append_assoc]
      show Reader.oneGlyph? (ofChars _ ++ (ofChars _ ++ rest)) = _
      rw [oneGlyph?_unit (by omega), glyph, if_pos (by omega), lowHalf?_unit (by omega),
        if_pos (by omega)]
      simp only [joined]
      exact congrArg (fun g => some (g, rest)) code


theorem Encoded.lowHalf? {c : Char} {cs : List Char} (encoded : Encoded c cs) (rest : Text) :
    lowHalf? (ofChars cs ++ rest) = none := by
  have range := toNat_lt c
  have single := not_surrogate c
  cases encoded with
  | @escape e h =>
    have not_unit : e ≠ 'u' := by
      rintro rfl
      cases h
    show Reader.lowHalf? (.char '\\' :: .char e :: rest) = _
    rw [Reader.lowHalf?]
    rintro s ⟨⟩
    exact not_unit rfl
  | plain h no_quote no_escape =>
    show Reader.lowHalf? (.char c :: rest) = _
    rw [Reader.lowHalf?]
    rintro s ⟨⟩
    exact absurd rfl no_escape
  | units =>
    unfold Writer.units
    split
    next small => rw [lowHalf?_unit small, if_neg (by omega)]
    next large =>
      rw [ofChars, List.map_append, List.append_assoc]
      show Reader.lowHalf? (ofChars _ ++ _) = _
      rw [lowHalf?_unit (by omega), if_neg (by omega)]

/-! ### Halves next to each other -/

/-- The first half of a pair and a second half: next to each other they are read as one
character. -/
def Joins (g h : Glyph) : Prop :=
  ∃ m n : Fin 0x800, g = .half m ∧ h = .half n ∧ m.val < 0x400 ∧ 0x400 ≤ n.val

/-- No first half of a pair stands before a second half. -/
def Parted (s : Text) : Prop := s.IsChain fun g h => ¬ Joins g h

/-- The place can stand before this text. -/
def Alone (g : Glyph) (rest : Text) : Prop :=
  ∀ m : Fin 0x800, g = .half m → m.val < 0x400 → lowHalf? rest = none

theorem oneGlyph?_encodeGlyph {g : Glyph} {rest : Text} (alone : Alone g rest) :
    oneGlyph? (ofChars (encodeGlyph g) ++ rest) = some (g, rest) := by
  cases g with
  | char c => exact (encoded c).oneGlyph? rest
  | half m =>
    have code := Glyph.ofCode_code (.half m)
    have range := m.isLt
    rw [encodeGlyph, oneGlyph?_unit (by omega)]
    refine congrArg some ?_
    rw [← code]
    by_cases first : m.val < 0x400
    · exact glyph_of_alone (alone m rfl first)
    · exact glyph_of_not_high (by omega) rest

theorem alone_encodeGlyph {g h : Glyph} (parted : ¬ Joins g h) (rest : Text) :
    Alone g (ofChars (encodeGlyph h) ++ rest) := by
  rintro m rfl first
  cases h with
  | char c => exact (encoded c).lowHalf? rest
  | half n =>
    have range := n.isLt
    rw [encodeGlyph, lowHalf?_unit (by omega), if_neg]
    exact fun second => parted ⟨m, n, rfl, rfl, first, by omega⟩

/-! ### Whole texts -/

theorem text?_step {fuel : ℕ} {acc s rest : Text} {g : Glyph}
    (read : oneGlyph? s = some (g, rest)) :
    text? (fuel + 1) acc s = text? fuel (g :: acc) rest := by
  have no_quote : ∀ t, s ≠ .char '"' :: t := by
    rintro t rfl
    cases read
  rw [text?, read]
  · rfl
  · exact no_quote

/-- **A text** that is written is read back, and what comes after it is left. -/
theorem text?_text {s : Text} (parted : Parted s) {fuel : ℕ} (enough : s.length ≤ fuel)
    (acc rest : Text) :
    text? fuel acc (ofChars (s.flatMap encodeGlyph) ++ .char '"' :: rest) =
      some (acc.reverse ++ s, rest) := by
  induction s generalizing fuel acc with
  | nil =>
    rw [List.append_nil]
    cases fuel <;> rfl
  | cons g s ih =>
    obtain ⟨fuel, rfl⟩ : ∃ k, fuel = k + 1 := ⟨fuel - 1, by rw [List.length_cons] at enough; omega⟩
    have tail := List.isChain_cons.1 parted
    -- What is read next is the next place of the text or the quote, so no half joins with this one.
    have alone : Alone g (ofChars (s.flatMap encodeGlyph) ++ .char '"' :: rest) := by
      cases s with
      | nil => exact fun _ _ _ => rfl
      | cons h s =>
        rw [List.flatMap_cons, ofChars, List.map_append, List.append_assoc]
        exact alone_encodeGlyph (tail.1 h rfl) _
    have split : ofChars ((g :: s).flatMap encodeGlyph) ++ .char '"' :: rest =
        ofChars (encodeGlyph g) ++ (ofChars (s.flatMap encodeGlyph) ++ .char '"' :: rest) := by
      rw [List.flatMap_cons, ofChars, List.map_append, List.append_assoc]
      rfl
    rw [split, text?_step (oneGlyph?_encodeGlyph alone), ih tail.2 (Nat.le_of_succ_le_succ enough),
      List.reverse_cons, List.append_assoc]
    rfl

/-! ### Texts that were read -/

/-- A text of characters alone. -/
def Plain (s : Text) : Prop := ∀ n, .half n ∉ s

theorem plain_ofChars (cs : List Char) : Plain (ofChars cs) := by
  intro n h
  obtain ⟨c, -, hc⟩ := List.mem_map.1 h
  cases hc

/-- Characters are no halves of a pair. -/
theorem Plain.parted {s : Text} (plain : Plain s) : Parted s := by
  refine (List.pairwise_of_forall_mem_list fun g first h _ => ?_).isChain
  rintro ⟨m, -, rfl, -⟩
  exact plain m first

theorem Plain.suffix {s t : Text} (plain : Plain s) (suffix : t <:+ s) : Plain t :=
  fun n h => plain n (suffix.subset h)

theorem suffix_of_unit? {s rest : Text} {n : ℕ} (read : unit? s = some (n, rest)) :
    rest <:+ s := by
  unfold unit? at read
  split at read
  next a b c d t =>
    simp only [Option.bind_eq_bind, Option.bind_eq_some_iff, Option.pure_def, Option.some.injEq,
      Prod.mk.injEq] at read
    obtain ⟨-, -, -, -, -, -, -, -, -, rfl⟩ := read
    exact ⟨[.char a, .char b, .char c, .char d], rfl⟩
  next => cases read

theorem suffix_of_lowHalf? {s rest : Text} {n : ℕ} (read : lowHalf? s = some (n, rest)) :
    rest <:+ s := by
  unfold lowHalf? at read
  split at read
  next t =>
    simp only [Option.bind_eq_bind, Option.bind_eq_some_iff] at read
    obtain ⟨⟨low, after⟩, unit, read⟩ := read
    split at read
    next =>
      cases read
      exact (suffix_of_unit? unit).trans ⟨[.char '\\', .char 'u'], rfl⟩
    next => cases read
  next => cases read

theorem ofCode_eq_half {n : ℕ} {m : Fin 0x800} (h : Glyph.ofCode n = .half m) :
    n = 0xD800 + m.val := by
  unfold Glyph.ofCode at h
  split at h
  next range =>
    have distance := congrArg Fin.val (Glyph.half.inj h)
    simp only at distance
    omega
  next => cases h

/-- What one place is read from. -/
inductive ReadFrom (s : Text) (g : Glyph) (rest : Text) : Prop
  | unit {t : Text} {n : ℕ} (start : s = .char '\\' :: .char 'u' :: t)
    (read : unit? t = some (n, rest)) (place : g = .ofCode n)
    (alone : 0xD800 ≤ n ∧ n < 0xDC00 → lowHalf? rest = none)
  | pair {c : Char} (place : g = .char c) (suffix : rest <:+ s)
  | escape {c e : Char} (start : s = .char '\\' :: .char e :: rest) (place : g = .char c)
  | plain (start : s = g :: rest)

theorem readFrom {s rest : Text} {g : Glyph} (read : oneGlyph? s = some (g, rest)) :
    ReadFrom s g rest := by
  unfold oneGlyph? at read
  split at read
  next t =>
    obtain ⟨⟨n, after⟩, unit, place⟩ := Option.map_eq_some_iff.1 read
    simp only [glyph] at place
    split at place
    next low beyond found =>
      obtain ⟨rfl, rfl⟩ := Prod.mk.inj place
      split at found
      next high =>
        refine .pair (c := Char.ofNat (0x10000 + (n - 0xD800) * 0x400 + (low - 0xDC00))) ?_ ?_
        · exact dif_neg (by omega)
        · exact ((suffix_of_lowHalf? found).trans (suffix_of_unit? unit)).trans
            ⟨[.char '\\', .char 'u'], rfl⟩
      next => cases found
    next none =>
      obtain ⟨rfl, rfl⟩ := Prod.mk.inj place
      refine .unit rfl unit rfl fun high => ?_
      rwa [if_pos high] at none
  next c t _ =>
    obtain ⟨e, -, place⟩ := Option.map_eq_some_iff.1 read
    cases place
    exact .escape rfl rfl
  next => cases read
  next => cases read
  next => cases read
  next h t _ _ _ _ =>
    split at read
    · cases read
    · cases read
      exact .plain rfl

theorem suffix_of_oneGlyph? {s rest : Text} {g : Glyph} (read : oneGlyph? s = some (g, rest)) :
    rest <:+ s := by
  cases readFrom read with
  | unit start unit => exact start ▸ (suffix_of_unit? unit).trans ⟨[.char '\\', .char 'u'], rfl⟩
  | pair place suffix => exact suffix
  | @escape c e start place => exact start ▸ ⟨[.char '\\', .char e], rfl⟩
  | plain start => exact start ▸ ⟨[g], rfl⟩

/-- After the first half of a pair no second half is read. -/
theorem alone_of_oneGlyph? {s rest : Text} {g : Glyph} (plain : Plain s)
    (read : oneGlyph? s = some (g, rest)) : Alone g rest := by
  rintro m rfl first
  cases readFrom read with
  | unit start unit place alone =>
    have code := ofCode_eq_half place.symm
    exact alone (by omega)
  | pair place => cases place
  | escape start place => cases place
  | plain start => exact absurd (start ▸ List.mem_cons_self) (plain m)

theorem lowHalf?_ne_none {s rest : Text} {n : Fin 0x800} (plain : Plain s)
    (read : oneGlyph? s = some (.half n, rest)) (second : 0x400 ≤ n.val) : lowHalf? s ≠ none := by
  cases readFrom read with
  | unit start unit place alone =>
    have code := ofCode_eq_half place.symm
    have range := n.isLt
    rw [start, lowHalf?, unit]
    simp only [Option.bind_eq_bind, Option.bind_some]
    rw [if_pos (by omega)]
    exact Option.some_ne_none _
  | pair place => cases place
  | escape start place => cases place
  | plain start => exact absurd (start ▸ List.mem_cons_self) (plain n)

theorem parted_cons {acc s rest : Text} {g : Glyph} (plain : Plain s)
    (parted : acc.IsChain fun h g => ¬ Joins g h) (alone : ∀ h ∈ acc.head?, Alone h s)
    (read : oneGlyph? s = some (g, rest)) :
    (g :: acc).IsChain fun h g => ¬ Joins g h := by
  refine List.isChain_cons.2 ⟨fun h last => ?_, parted⟩
  rintro ⟨m, n, rfl, rfl, first, second⟩
  exact lowHalf?_ne_none plain read second (alone _ last m rfl first)

/-- **A text** that is read from characters can be written, and what comes after it is left. -/
theorem parted_of_text? {fuel : ℕ} {acc s t rest : Text} (plain : Plain s)
    (parted : acc.IsChain fun h g => ¬ Joins g h) (alone : ∀ g ∈ acc.head?, Alone g s)
    (read : text? fuel acc s = some (t, rest)) : Parted t ∧ rest <:+ s := by
  fun_induction text? fuel acc s with
  | case1 fuel acc after =>
    cases read
    exact ⟨List.isChain_reverse.2 parted, ⟨[.char '"'], rfl⟩⟩
  | case2 fuel acc s no_quote ih =>
    simp only [Option.bind_eq_bind, Option.bind_eq_some_iff] at read
    obtain ⟨⟨g, after⟩, one, read⟩ := read
    have suffix := suffix_of_oneGlyph? one
    have left := ih g after (plain.suffix suffix) (parted_cons plain parted alone one)
      (fun h last => Option.some.inj last ▸ alone_of_oneGlyph? plain one) read
    exact ⟨left.1, left.2.trans suffix⟩
  | case3 => cases read

end SymbolTrees.Json.Reader
