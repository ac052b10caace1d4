/-!
UTF-8, with bytes as natural numbers. Bytes that form no character are reported piece by piece: a
piece is as long as it could still have become a character.
-/

namespace SymbolTrees.Text.Utf8

/-- The bytes of a character. -/
def encode (c : Char) : List Nat :=
  let n := c.toNat
  if n < 0x80 then [n]
  else if n < 0x800 then [0xC0 + n / 0x40, 0x80 + n % 0x40]
  else if n < 0x10000 then [0xE0 + n / 0x1000, 0x80 + n / 0x40 % 0x40, 0x80 + n % 0x40]
  else [0xF0 + n / 0x40000, 0x80 + n / 0x1000 % 0x40, 0x80 + n / 0x40 % 0x40, 0x80 + n % 0x40]

theorem encode_of_lt {c : Char} (h : c.toNat < 0x80) : encode c = [c.toNat] := if_pos h

theorem lt_of_mem_encode {c : Char} {b : Nat} (h : b ∈ encode c) : b < 0x100 := by
  have hv : c.toNat < 0xD800 ∨ (0xDFFF < c.toNat ∧ c.toNat < 0x110000) := c.valid
  unfold encode at h
  simp only at h
  repeat' split at h
  all_goals
    simp only [List.mem_cons, List.not_mem_nil, or_false] at h
    omega

/-- Where the reader stands between two bytes. -/
inductive State where
  /-- Between two characters. -/
  | start
  /-- Inside a character: how many bytes are still owed, the value so far, and the least and the
  greatest byte that may come next. -/
  | inside (owed value low high : Nat)
deriving Repr, DecidableEq

/-- The state after the first byte of a character, or none where no character starts with it. -/
def first (b : Nat) : Option State :=
  if 0xC2 ≤ b ∧ b ≤ 0xDF then some (.inside 1 (b - 0xC0) 0x80 0xBF)
  else if b = 0xE0 then some (.inside 2 0 0xA0 0xBF)
  else if b = 0xED then some (.inside 2 0xD 0x80 0x9F)
  else if 0xE1 ≤ b ∧ b ≤ 0xEF then some (.inside 2 (b - 0xE0) 0x80 0xBF)
  else if b = 0xF0 then some (.inside 3 0 0x90 0xBF)
  else if 0xF1 ≤ b ∧ b ≤ 0xF3 then some (.inside 3 (b - 0xF0) 0x80 0xBF)
  else if b = 0xF4 then some (.inside 3 4 0x80 0x8F)
  else none

/-- A byte between two characters: what it completes, and the state after it. -/
def start (b : Nat) : List (Option Char) × State :=
  if b < 0x80 then ([some (Char.ofNat b)], .start)
  else match first b with
    | some state => ([], state)
    | none => ([none], .start)

/-- One byte. A byte that cannot go on ends the piece before it and starts anew. -/
def step : State → Nat → List (Option Char) × State
  | .start, b => start b
  | .inside owed value low high, b =>
    if low ≤ b ∧ b ≤ high then
      let value := value * 0x40 + (b - 0x80)
      if owed ≤ 1 then ([some (Char.ofNat value)], .start)
      else ([], .inside (owed - 1) value 0x80 0xBF)
    else
      let (out, state) := start b
      (none :: out, state)

/-- The characters of the bytes, with `none` for every piece that is none. -/
def run : State → List Nat → List (Option Char)
  | .start, [] => []
  | .inside .., [] => [none]
  | state, b :: rest =>
    let (out, state) := step state b
    out ++ run state rest

/-- The characters, with the replacement character for what is none. -/
def decode (bytes : List Nat) : List Char := (run .start bytes).map (·.getD '\uFFFD')

/-- The text of the bytes, if all of them are characters. -/
def decode? (bytes : List Nat) : Option (List Char) := (run .start bytes).mapM id

/-! ### Reading back what was written -/

theorem run_start (b : Nat) (rest : List Nat) :
    run .start (b :: rest) = (start b).1 ++ run (start b).2 rest := rfl

theorem run_first {b : Nat} {state : State} (rest : List Nat) (hb : ¬b < 0x80)
    (h : first b = some state) : run .start (b :: rest) = run state rest := by
  simp [run_start, start, if_neg hb, h]

theorem run_last {value low high b : Nat} (rest : List Nat) (h : low ≤ b ∧ b ≤ high) :
    run (.inside 1 value low high) (b :: rest) =
      some (Char.ofNat (value * 0x40 + (b - 0x80))) :: run .start rest := by
  simp [run, step, if_pos h]

theorem run_more {owed value low high b : Nat} (rest : List Nat) (h : low ≤ b ∧ b ≤ high) :
    run (.inside (owed + 2) value low high) (b :: rest) =
      run (.inside (owed + 1) (value * 0x40 + (b - 0x80)) 0x80 0xBF) rest := by
  simp [run, step, if_pos h]

/-- The first byte of two. -/
theorem first_of_two {n : Nat} (h : 2 ≤ n ∧ n < 0x20) :
    first (0xC0 + n) = some (.inside 1 n 0x80 0xBF) := by
  rw [first, if_pos (by omega), Nat.add_sub_cancel_left]

/-- The first byte of three. The byte after it leaves out what two bytes can write, and the
surrogates. -/
theorem first_of_three : ∀ n < 0x10, first (0xE0 + n) =
    some (.inside 2 n (if n = 0 then 0xA0 else 0x80) (if n = 0xD then 0x9F else 0xBF)) := by
  decide

/-- The first byte of four. The byte after it leaves out what three bytes can write, and what lies
above the last code point. -/
theorem first_of_four : ∀ n < 5, first (0xF0 + n) =
    some (.inside 3 n (if n = 0 then 0x90 else 0x80) (if n = 4 then 0x8F else 0xBF)) := by
  decide

/-- The bytes of a character are read as that character, whatever follows. -/
theorem run_encode (c : Char) (rest : List Nat) :
    run .start (encode c ++ rest) = some c :: run .start rest := by
  have hv : c.toNat < 0xD800 ∨ (0xDFFF < c.toNat ∧ c.toNat < 0x110000) := c.valid
  have hc : Char.ofNat c.toNat = c := Char.ofNat_toNat c
  unfold encode
  generalize c.toNat = n at hv hc ⊢
  simp only
  split
  · simp [run_start, start, *]
  split
  · simp only [List.cons_append, List.nil_append]
    rw [run_first _ (by omega) (first_of_two (by omega)), run_last _ (by omega),
      show n / 0x40 * 0x40 + (0x80 + n % 0x40 - 0x80) = n by omega, hc]
  split
  · have hm : (if n / 0x1000 = 0 then 0xA0 else 0x80) ≤ 0x80 + n / 0x40 % 0x40 ∧
        0x80 + n / 0x40 % 0x40 ≤ if n / 0x1000 = 0xD then 0x9F else 0xBF := by
      constructor <;> split <;> omega
    simp only [List.cons_append, List.nil_append]
    rw [run_first _ (by omega) (first_of_three _ (by omega)), run_more _ hm, run_last _ (by omega),
      show (n / 0x1000 * 0x40 + (0x80 + n / 0x40 % 0x40 - 0x80)) * 0x40 +
        (0x80 + n % 0x40 - 0x80) = n by omega, hc]
  · have hm : (if n / 0x40000 = 0 then 0x90 else 0x80) ≤ 0x80 + n / 0x1000 % 0x40 ∧
        0x80 + n / 0x1000 % 0x40 ≤ if n / 0x40000 = 4 then 0x8F else 0xBF := by
      constructor <;> split <;> omega
    simp only [List.cons_append, List.nil_append]
    rw [run_first _ (by omega) (first_of_four _ (by omega)), run_more _ hm, run_more _ (by omega),
      run_last _ (by omega),
      show ((n / 0x40000 * 0x40 + (0x80 + n / 0x1000 % 0x40 - 0x80)) * 0x40 +
        (0x80 + n / 0x40 % 0x40 - 0x80)) * 0x40 + (0x80 + n % 0x40 - 0x80) = n by omega, hc]

theorem run_flatMap_encode (s : List Char) : run .start (s.flatMap encode) = s.map some := by
  induction s with
  | nil => rfl
  | cons c rest ih => rw [List.flatMap_cons, run_encode, ih, List.map_cons]

/-- The bytes of a text are read as that text. -/
theorem decode_encode (s : List Char) : decode (s.flatMap encode) = s := by
  rw [decode, run_flatMap_encode, List.map_map]
  exact List.map_id s

theorem decode?_encode (s : List Char) : decode? (s.flatMap encode) = some s := by
  rw [decode?, run_flatMap_encode]
  induction s with
  | nil => rfl
  | cons c rest ih => simp [List.mapM_cons, ih]

end SymbolTrees.Text.Utf8
