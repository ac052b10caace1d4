import SymbolTrees.Text.Basic
import SymbolTrees.Text.Utf8

/-!
Percent escapes. A character that may not stand in a URI is written as its UTF-8 bytes, each as a
percent sign and two hexadecimal digits.
-/

namespace SymbolTrees.Uri.Escape

open SymbolTrees.Text

/-- Letters, digits, the slash and four marks stand for themselves. -/
def isPlain (c : Char) : Bool :=
  c.isAlphanum || c == '/' || c == '_' || c == '.' || c == '-' || c == '~'

def hexDigit (n : Nat) : Char := if n < 10 then Char.ofNat (48 + n) else Char.ofNat (55 + n)

def encodeByte (b : Nat) : List Char := ['%', hexDigit (b / 16), hexDigit (b % 16)]

def encode (s : List Char) : List Char :=
  s.flatMap fun c => if isPlain c then [c] else (Utf8.encode c).flatMap encodeByte

def hexValue? (c : Char) : Option Nat :=
  if c.isDigit then some (c.toNat - 48)
  else if 'A' ≤ c ∧ c ≤ 'F' then some (c.toNat - 55)
  else if 'a' ≤ c ∧ c ≤ 'f' then some (c.toNat - 87)
  else none

/-- The byte that two hexadecimal digits write. -/
def byte? (high low : Char) : Option Nat :=
  return (← hexValue? high) * 16 + (← hexValue? low)

/-- The bytes of an ASCII text; a percent sign without two digits stands for itself. -/
def bytes : List Char → List Nat
  | '%' :: high :: low :: rest =>
    match byte? high low with
    | some b => b :: bytes rest
    | none => 0x25 :: bytes (high :: low :: rest)
  | c :: rest => c.toNat :: bytes rest
  | [] => []

/-- The runs of places inside and outside ASCII, in turn. -/
def decodeFrom (run : List Char) : Text → Text
  | [] => ofChars (Utf8.decode (bytes run.reverse))
  | g :: rest =>
    if g.code < 0x80 then decodeFrom (g.toChar :: run) rest
    else ofChars (Utf8.decode (bytes run.reverse)) ++ g :: decodeFrom [] rest

/-- The text behind the escapes. The bytes of neighbouring escapes are read together, and what is
no UTF-8 becomes the replacement character. -/
def decode (s : Text) : Text := decodeFrom [] s

/-! ### Reading back what was written -/

theorem byte?_hexDigit : ∀ b < 0x100, byte? (hexDigit (b / 16)) (hexDigit (b % 16)) = some b := by
  decide +kernel

theorem bytes_encodeByte {b : Nat} (h : b < 0x100) (rest : List Char) :
    bytes (encodeByte b ++ rest) = b :: bytes rest := by
  simp [encodeByte, bytes, byte?_hexDigit b h]

theorem bytes_cons {c : Char} (h : c ≠ '%') (rest : List Char) :
    bytes (c :: rest) = c.toNat :: bytes rest := by
  rw [bytes]
  exact fun _ _ _ hc => absurd hc h

theorem bytes_flatMap_encodeByte (bs : List Nat) (h : ∀ b ∈ bs, b < 0x100) (rest : List Char) :
    bytes (bs.flatMap encodeByte ++ rest) = bs ++ bytes rest := by
  induction bs with
  | nil => rfl
  | cons b bs ih =>
    rw [List.flatMap_cons, List.append_assoc, bytes_encodeByte (h b List.mem_cons_self),
      ih fun b hb => h b (List.mem_cons_of_mem _ hb), List.cons_append]

theorem toNat_lt_of_isPlain {c : Char} (h : isPlain c = true) : c.toNat < 0x80 := by
  delta isPlain Char.isAlphanum Char.isAlpha Char.isUpper Char.isLower Char.isDigit at h
  simp only [Bool.or_eq_true, Bool.and_eq_true, decide_eq_true_eq, beq_iff_eq,
    UInt32.le_iff_toNat_le, ge_iff_le] at h
  rcases h with (((((hl | hd) | rfl) | rfl) | rfl) | rfl) | rfl
  · have : c.toNat = c.val.toNat := rfl
    have : 'Z'.val.toNat = 90 := rfl
    have : 'z'.val.toNat = 122 := rfl
    omega
  · have : c.toNat = c.val.toNat := rfl
    have : '9'.val.toNat = 57 := rfl
    omega
  all_goals decide

/-- The bytes behind what was escaped are those of the text. -/
theorem bytes_encode (s : List Char) : bytes (encode s) = s.flatMap Utf8.encode := by
  induction s with
  | nil => rfl
  | cons c rest ih =>
    unfold encode at ih ⊢
    rw [List.flatMap_cons, List.flatMap_cons]
    by_cases h : isPlain c = true
    · have hc : c ≠ '%' := fun e => absurd (e ▸ h) (by decide)
      rw [if_pos h, List.singleton_append, bytes_cons hc, ih,
        Utf8.encode_of_lt (toNat_lt_of_isPlain h), List.singleton_append]
    · rw [if_neg h, bytes_flatMap_encodeByte _ (fun _ => Utf8.lt_of_mem_encode), ih]

theorem hexDigit_lt : ∀ n < 0x10, (hexDigit n).toNat < 0x80 := by decide

/-- What is escaped is in ASCII. -/
theorem toNat_lt_of_mem_encode {s : List Char} {c : Char} (h : c ∈ encode s) : c.toNat < 0x80 := by
  obtain ⟨d, _, hd⟩ := List.mem_flatMap.1 h
  split at hd
  · next hp => exact List.mem_singleton.1 hd ▸ toNat_lt_of_isPlain hp
  · obtain ⟨b, hb, hc⟩ := List.mem_flatMap.1 hd
    have hlt := Utf8.lt_of_mem_encode hb
    simp only [encodeByte, List.mem_cons, List.not_mem_nil, or_false] at hc
    rcases hc with rfl | rfl | rfl
    · decide
    · exact hexDigit_lt _ (by omega)
    · exact hexDigit_lt _ (by omega)

theorem decodeFrom_of_lt (run s : List Char) (h : ∀ c ∈ s, c.toNat < 0x80) :
    decodeFrom run (ofChars s) = ofChars (Utf8.decode (bytes (run.reverse ++ s))) := by
  induction s generalizing run with
  | nil => rw [ofChars, List.map_nil, decodeFrom, List.append_nil]
  | cons c rest ih =>
    have hc : (Glyph.char c).code < 0x80 := h c List.mem_cons_self
    have ih := ih (c :: run) fun c hc => h c (List.mem_cons_of_mem _ hc)
    unfold ofChars at ih ⊢
    rw [List.map_cons, decodeFrom, if_pos hc]
    exact ih.trans (by rw [List.reverse_cons, List.append_assoc, List.singleton_append])

/-- **Every text of characters is read back from its escapes.** -/
theorem decode_encode (s : List Char) : decode (ofChars (encode s)) = ofChars s := by
  rw [decode, decodeFrom_of_lt _ _ fun _ => toNat_lt_of_mem_encode, List.reverse_nil,
    List.nil_append, bytes_encode, Utf8.decode_encode]

end SymbolTrees.Uri.Escape
