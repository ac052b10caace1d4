/-!
Texts. JSON may name half of a surrogate pair whose other half is missing, which is no character.
Such a half stays where it stands wherever the text goes, so that different texts stay different.
-/

namespace SymbolTrees

/-- One place of a text. -/
inductive Glyph where
  | char (c : Char)
  /-- Half of a surrogate pair, by its distance from the first surrogate. -/
  | half (n : Fin 0x800)
deriving Repr, DecidableEq, Inhabited

namespace Glyph

/-- What a code point stands for; there are `0x800` surrogates from `0xD800` on. -/
def ofCode (n : Nat) : Glyph :=
  if h : 0xD800 ≤ n ∧ n < 0xE000 then half ⟨n - 0xD800, by omega⟩ else char (Char.ofNat n)

def code : Glyph → Nat
  | char c => c.toNat
  | half n => 0xD800 + n.val

/-- The character; a half is none. -/
def char? : Glyph → Option Char
  | char c => some c
  | half _ => none

/-- The character, where a half counts as the replacement character. -/
def toChar (g : Glyph) : Char := g.char?.getD '\uFFFD'

/-- Every place is given by its code point. -/
theorem ofCode_code (g : Glyph) : ofCode g.code = g := by
  cases g with
  | char c =>
    have hv : c.toNat < 0xD800 ∨ (0xDFFF < c.toNat ∧ c.toNat < 0x110000) := c.valid
    have hc : ¬(0xD800 ≤ c.toNat ∧ c.toNat < 0xE000) := by omega
    rw [code, ofCode, dif_neg hc, Char.ofNat_toNat]
  | half n =>
    have hn : 0xD800 ≤ 0xD800 + n.val ∧ 0xD800 + n.val < 0xE000 := by omega
    rw [code, ofCode, dif_pos hn]
    exact congrArg half (Fin.ext (Nat.add_sub_cancel_left 0xD800 n.val))

theorem code_inj {g h : Glyph} : g.code = h.code ↔ g = h := by
  refine ⟨fun e => ?_, fun e => e ▸ rfl⟩
  rw [← ofCode_code g, e, ofCode_code]

end Glyph

/-- A text, place by place. -/
abbrev Text := List Glyph

namespace Text

def ofChars (s : List Char) : Text := s.map .char

def ofString (s : String) : Text := ofChars s.toList

instance : Coe String Text := ⟨ofString⟩

/-- The characters of a text that holds no half. -/
def chars? (t : Text) : Option (List Char) := t.mapM Glyph.char?

/-- The characters, with the replacement character for every half. -/
def chars (t : Text) : List Char := t.map Glyph.toChar

protected def toString (t : Text) : String := String.ofList t.chars

/-- The order of texts, by the code points of their places. -/
def le : Text → Text → Bool
  | [], _ => true
  | _ :: _, [] => false
  | g :: s, h :: t => g.code < h.code || (g.code == h.code && le s t)

@[simp] theorem chars_ofChars (s : List Char) : chars (ofChars s) = s := by
  unfold chars ofChars
  rw [List.map_map]
  exact List.map_id s

@[simp] theorem chars?_ofChars (s : List Char) : chars? (ofChars s) = some s := by
  induction s with
  | nil => rfl
  | cons c rest ih =>
    unfold chars? ofChars at ih ⊢
    rw [List.map_cons, List.mapM_cons, ih]
    rfl

/-- A text of characters alone is read back. -/
@[simp] theorem toString_ofString (s : String) : (ofString s).toString = s := by
  rw [Text.toString, ofString, chars_ofChars, String.ofList_toList]

/-- Different texts of characters stay different. -/
@[simp] theorem ofString_inj {s t : String} : ofString s = ofString t ↔ s = t := by
  refine ⟨fun h => ?_, fun h => h ▸ rfl⟩
  rw [← toString_ofString s, h, toString_ofString]

/-- A text has characters just if it is made of them. -/
theorem chars?_eq_some {t : Text} {s : List Char} : chars? t = some s ↔ t = ofChars s := by
  refine ⟨fun h => ?_, fun h => h ▸ chars?_ofChars s⟩
  induction t generalizing s with
  | nil => cases h; rfl
  | cons g rest ih =>
    unfold chars? at h ih
    rw [List.mapM_cons] at h
    cases g with
    | half n => simp [Glyph.char?] at h
    | char c =>
      cases hr : List.mapM Glyph.char? rest with
      | none => simp [Glyph.char?, hr] at h
      | some more =>
        simp only [Glyph.char?, hr, Option.bind_eq_bind, Option.bind_some, Option.pure_def,
          Option.some.injEq] at h
        rw [← h, ih hr, ofChars, ofChars, List.map_cons]

end Text

end SymbolTrees
