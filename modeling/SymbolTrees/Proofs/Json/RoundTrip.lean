import SymbolTrees.Proofs.Json.Number
import SymbolTrees.Proofs.Json.Text

/-!
# JSON that is written is read back

A value can be written if its integers are not longer than those that are read, if no text in it has
the two halves of a pair next to each other, and if the names of the fields of an object are
distinct. Such a value is read back from its text. What is read from characters is such a value, so
that it can be written anew.

Main statements: `Json.ofText?_toText` and `Json.writable_of_ofText?`.
-/

namespace SymbolTrees.Json

open Text Reader

/-- A value that is read back from its text. -/
inductive Writable : Json → Prop
  | null : Writable .null
  | bool (b : Bool) : Writable (.bool b)
  | int {n : ℤ} (short : Short n) : Writable (.num (.int n))
  | float (x : Float) : Writable (.num (.float x))
  | str {s : Text} (parted : Parted s) : Writable (.str s)
  | arr {vs : List Json} (entries : ∀ v ∈ vs, Writable v) : Writable (.arr vs)
  | obj {fs : List (Text × Json)} (distinct : (fs.map Prod.fst).Nodup)
    (names : ∀ f ∈ fs, Parted f.1) (values : ∀ f ∈ fs, Writable f.2) : Writable (.obj fs)

theorem Writable.noEntries : Writable (.arr []) := .arr fun _ h => absurd h List.not_mem_nil

theorem Writable.noFields : Writable (.obj []) :=
  .obj List.nodup_nil (fun _ h => absurd h List.not_mem_nil) fun _ h => absurd h List.not_mem_nil

/-- An object can still be written after a field is put into it. -/
theorem Writable.put {fs : Fields} {k : Text} {v : Json} (before : Writable (.obj fs))
    (name : Parted k) (value : Writable v) : Writable (.obj (fs.put k v)) := by
  cases before with
  | obj distinct names values =>
    refine .obj (Table.nodup_put distinct) (fun f hf => ?_) fun f hf => ?_
    · exact (Table.mem_put fs k hf).elim (fun same => same ▸ name) (names f)
    · exact (Table.mem_put fs k hf).elim (fun same => same ▸ value) (values f)

/-- An object can still be written after more fields are put into it. -/
theorem Writable.foldl_put {fs entries : Fields} (before : Writable (.obj fs))
    (more : ∀ entry ∈ entries, Parted entry.1 ∧ Writable entry.2) :
    Writable (.obj (entries.foldl (fun table entry => Table.put table entry.1 entry.2) fs)) := by
  induction entries generalizing fs with
  | nil => exact before
  | cons entry entries ih =>
    rw [List.forall_mem_cons] at more
    exact ih (before.put more.1.1 more.1.2) more.2

theorem Writable.distinct {fs : Fields} (writable : Writable (.obj fs)) :
    (fs.map Prod.fst).Nodup := by
  cases writable with
  | obj distinct => exact distinct

namespace Reader

theorem ofString_append (s t : String) : ofString (s ++ t) = ofString s ++ ofString t := by
  rw [ofString, String.toList_append, ofChars, List.map_append]
  rfl

/-! ### White space -/

/-- The text starts with something that is neither white space nor a closing bracket. -/
def Begins (s : Text) : Prop :=
  ∃ c t, s = .char c :: t ∧ c ∉ [' ', '\t', '\n', '\r', ']', '\x7d']

theorem Begins.skip {s : Text} (begins : Begins s) : skip s = s := by
  obtain ⟨c, t, rfl, other⟩ := begins
  have not_white : ([' ', '\t', '\n', '\r'].contains (Glyph.char c).toChar) = false := by
    rw [Bool.eq_false_iff, ne_eq, List.contains_iff_mem]
    intro white
    refine other ?_
    have split : [' ', '\t', '\n', '\r', ']', '\x7d'] =
      [' ', '\t', '\n', '\r'] ++ [']', '\x7d'] := rfl
    rw [split]
    exact List.mem_append_left _ white
  rw [Reader.skip, List.dropWhile_cons, not_white]
  rfl

theorem skip_newline (level : ℕ) {s : Text} (starts : skip s = s) :
    skip (ofString (Writer.newline level) ++ s) = s := by
  unfold Reader.skip at starts ⊢
  rw [List.dropWhile_append_of_pos, starts]
  intro g blank
  rw [Writer.newline, ofString_append, ofString, ofString] at blank
  rcases List.mem_append.1 blank with first | blank
  · obtain rfl := List.mem_singleton.1 first
    rfl
  · obtain ⟨c, hc, rfl⟩ := List.mem_map.1 blank
    rw [String.toList_ofList] at hc
    rw [List.eq_of_mem_replicate hc]
    rfl

/-! ### Words and numbers -/

/-- A number starts with a digit, or with a sign and a digit. -/
theorem digit_of_number? {s : Text} {r : Number × Text} (read : number? s = some r) :
    (∃ c t, s = .char c :: t ∧ c.isDigit = true) ∨
      ∃ c t, s = .char '-' :: .char c :: t ∧ c.isDigit = true := by
  unfold number? at read
  split at read
  next t =>
    obtain ⟨u, unsigned, -⟩ := Option.map_eq_some_iff.1 read
    obtain ⟨c, t, rfl, digit⟩ := digit_of_unsigned? unsigned
    exact .inr ⟨c, t, rfl, digit⟩
  next => exact .inl (digit_of_unsigned? read)

/-- A number is no word. -/
theorem word?_of_number? {s : Text} {r : Number × Text} (read : number? s = some r) :
    word? s = none := by
  have other {c d : Char} (digit : c.isDigit = true) (h : d.isDigit = false) :
      ¬ Glyph.char d = .char c := by
    rintro ⟨⟩
    rw [digit] at h
    cases h
  rcases digit_of_number? read with ⟨c, t, rfl, digit⟩ | ⟨c, t, rfl, digit⟩
  · simp [word?, words, ofString, ofChars, after?, other digit]
  · simp [word?, words, ofString, ofChars, after?, other digit]

theorem begins_of_number? {s : Text} {r : Number × Text} (read : number? s = some r) :
    Begins s := by
  rcases digit_of_number? read with ⟨c, t, rfl, digit⟩ | ⟨c, t, rfl, digit⟩
  · refine ⟨c, t, rfl, fun h => ?_⟩
    simp only [List.mem_cons, List.not_mem_nil, or_false] at h
    rcases h with rfl | rfl | rfl | rfl | rfl | rfl <;> cases digit
  · exact ⟨'-', _, rfl, by decide⟩

/-- What does not start like a text, a list or an object is a word or a number. -/
theorem value?_of_ne {c : Char} {t : Text} (other : c ∉ ['"', '[', '\x7b']) (fuel : ℕ) :
    value? (fuel + 1) (.char c :: t) = (word? (.char c :: t)).or
      ((number? (.char c :: t)).map fun (n, rest) => (.num n, rest)) := by
  rw [value?]
  · rintro s ⟨⟩
    exact other (by decide)
  · rintro s ⟨⟩
    exact other (by decide)
  · rintro s ⟨⟩
    exact other (by decide)

theorem value?_number {s rest : Text} {n : Number} (read : number? s = some (n, rest)) (fuel : ℕ) :
    value? (fuel + 1) s = some (.num n, rest) := by
  have word := word?_of_number? read
  rcases digit_of_number? read with ⟨c, t, rfl, digit⟩ | ⟨c, t, rfl, digit⟩
  · rw [value?_of_ne, word, read]
    · rfl
    · intro h
      simp only [List.mem_cons, List.not_mem_nil, or_false] at h
      rcases h with rfl | rfl | rfl <;> cases digit
  · rw [value?_of_ne (by decide), word, read]
    rfl

/-! ### Doubles that are words -/

theorem eq_undefined {x : Float} (undefined : x.isNaN = true) : x = 0 / 0 := by
  have model := Rounding.ofModel_pack_unpack x
  have undefined' : x.toModel.unpack.isNaN = true := undefined
  generalize x.toModel.unpack = value at model undefined'
  cases value with
  | notANumber => exact model.symm
  | _ => cases undefined'

theorem eq_infinite {x : Float} (infinite : x.isInf = true) :
    x = if x.toBits >>> 63 = 1 then -1 / 0 else 1 / 0 := by
  have model := Rounding.ofModel_pack_unpack x
  have infinite' : x.toModel.unpack.isInf = true := infinite
  cases unpacked : x.toModel.unpack with
  | infinity sign =>
    have negative :=
      (Decimal.Binary.Signed.infinity : Decimal.Binary.Signed sign _).sign_bit unpacked
    rw [unpacked] at model
    cases sign with
    | positive =>
      rw [if_neg (by rw [negative]; rintro ⟨⟩)]
      exact model.symm
    | negative =>
      rw [if_pos (by rw [negative])]
      exact model.symm
  | _ => rw [unpacked] at infinite'; cases infinite'

/-- A number is read back, also one that is written as a word. -/
theorem value?_num {n : Number} (writable : Writable (.num n)) {rest : Text} (stops : Stops rest)
    (fuel : ℕ) :
    Begins (ofString (Writer.number n) ++ rest) ∧
      value? (fuel + 1) (ofString (Writer.number n) ++ rest) = some (.num n, rest) := by
  cases writable with
  | int short =>
    have read := number?_int short stops
    exact ⟨begins_of_number? read, value?_number read fuel⟩
  | float x =>
    cases number : x.isNaN with
    | true =>
      have text : Writer.number (.float x) = "NaN" := if_pos number
      rw [text, eq_undefined number]
      exact ⟨⟨'N', _, rfl, by decide⟩, rfl⟩
    | false =>
      cases finite : x.isInf with
      | true =>
        have text : Writer.number (.float x) =
            (if x.toBits >>> 63 = 1 then "-" else "") ++ "Infinity" := by
          rw [Writer.number, Decimal.Layout.text, if_neg (by rw [number]; decide), if_pos finite]
          rfl
        have value := eq_infinite finite
        rw [text]
        split at value
        next negative =>
          rw [if_pos negative, value]
          exact ⟨⟨'-', _, rfl, by decide⟩, rfl⟩
        next positive =>
          rw [if_neg positive, value]
          exact ⟨⟨'I', _, rfl, by decide⟩, rfl⟩
      | false =>
        have read := number?_float number finite stops
        exact ⟨begins_of_number? read, value?_number read fuel⟩

/-! ### Values -/

/-- The value is read back from its text, whatever follows, with fuel for all of the text. -/
structure ReadsBack (v : Json) : Prop where
  begins (level : ℕ) {rest : Text} (stops : Stops rest) :
    Begins (ofString (Writer.value level v) ++ rest)
  value? (level : ℕ) {fuel : ℕ} {rest : Text} (enough : (Writer.value level v).length ≤ fuel)
    (stops : Stops rest) :
    value? fuel (ofString (Writer.value level v) ++ rest) = some (v, rest)

theorem stops_newline (level : ℕ) (s : Text) :
    Stops (ofString (Writer.newline level) ++ s) := by
  rw [Writer.newline, ofString_append, List.append_assoc]
  exact .newline _

theorem entries_cons (level : ℕ) (v : Json) (vs : List Json) (s : Text) :
    ofString (Writer.entries level (v :: vs)) ++ s =
      .char ',' :: (ofString (Writer.newline level) ++ (ofString (Writer.value level v) ++
        (ofString (Writer.entries level vs) ++ s))) := by
  rw [Writer.entries, ofString_append, ofString_append, ofString_append, List.append_assoc,
    List.append_assoc, List.append_assoc]
  rfl

theorem stops_entries (level level' : ℕ) (vs : List Json) (s : Text) :
    Stops (ofString (Writer.entries level vs) ++ (ofString (Writer.newline level') ++ s)) := by
  cases vs with
  | nil => exact stops_newline level' s
  | cons v vs =>
    rw [entries_cons]
    exact .comma _

theorem length_newline (level : ℕ) : (Writer.newline level).length = 2 * level + 1 := by
  rw [Writer.newline, String.length_append, String.length_ofList (l := List.replicate _ _),
    List.length_replicate, Nat.add_comm]
  rfl

theorem length_entries_cons (level : ℕ) (v : Json) (vs : List Json) :
    (Writer.value level v).length + (Writer.entries level vs).length + 1 <
      (Writer.entries level (v :: vs)).length := by
  have break_pos := length_newline level
  have comma : ",".length = 1 := rfl
  rw [Writer.entries, String.length_append, String.length_append, String.length_append]
  omega

/-- The entries of a list are read back up to the closing bracket. -/
theorem entries?_entries {v : Json} {vs : List Json} (back : ∀ u ∈ v :: vs, ReadsBack u)
    (level level' : ℕ) {fuel : ℕ}
    (enough : (Writer.value level v).length + (Writer.entries level vs).length < fuel)
    (acc : List Json) (rest : Text) :
    entries? fuel acc (ofString (Writer.value level v) ++ (ofString (Writer.entries level vs) ++
      (ofString (Writer.newline level') ++ .char ']' :: rest))) =
      some (acc.reverse ++ v :: vs, rest) := by
  -- The first entry stands apart, for the reader takes the comma only after an entry.
  induction vs generalizing v acc fuel with
  | nil =>
    obtain ⟨fuel, rfl⟩ : ∃ k, fuel = k + 1 := ⟨fuel - 1, by omega⟩
    have read := (back v List.mem_cons_self).value? level (show _ ≤ fuel by omega)
      (stops_entries level level' [] (.char ']' :: rest))
    have closing : skip (ofString (Writer.entries level []) ++
        (ofString (Writer.newline level') ++ .char ']' :: rest)) = .char ']' :: rest :=
      skip_newline level' rfl
    simp only [entries?, read, Option.bind_eq_bind, Option.bind_some, closing, List.reverse_cons]
  | cons u vs ih =>
    obtain ⟨fuel, rfl⟩ : ∃ k, fuel = k + 1 := ⟨fuel - 1, by omega⟩
    have back' : ∀ w ∈ u :: vs, ReadsBack w := fun w hw => back w (List.mem_cons_of_mem _ hw)
    have shorter := length_entries_cons level u vs
    have stops := stops_entries level level' vs (.char ']' :: rest)
    have read := (back v List.mem_cons_self).value? level (show _ ≤ fuel by omega)
      (stops_entries level level' (u :: vs) (.char ']' :: rest))
    have next := skip_newline level ((back' u List.mem_cons_self).begins level stops).skip
    have entries := ih back' (show _ < fuel by omega) (v :: acc)
    rw [entries_cons] at read ⊢
    have comma (s : Text) : skip (.char ',' :: s) = .char ',' :: s := rfl
    simp only [entries?, read, Option.bind_eq_bind, Option.bind_some, comma, next, entries,
      List.reverse_cons, List.append_assoc, List.singleton_append]

theorem ofString_text (s rest : Text) :
    ofString (Writer.text s) ++ rest =
      .char '"' :: (ofChars (s.flatMap Writer.encodeGlyph) ++ .char '"' :: rest) := by
  rw [Writer.text, ofString, String.toList_ofList]
  simp only [ofChars, List.cons_append, List.map_cons, List.map_append, List.map_nil,
    List.append_assoc, List.nil_append]

theorem encodeGlyph_ne_nil (g : Glyph) : Writer.encodeGlyph g ≠ [] := by
  intro none
  have read : oneGlyph? (ofChars (Writer.encodeGlyph g) ++ []) = some (g, []) :=
    oneGlyph?_encodeGlyph fun _ _ _ => rfl
  rw [none] at read
  cases read

/-- A text is read back in front of all that follows. -/
theorem text?_encoded {s : Text} (parted : Parted s) (rest : Text) :
    text? (ofChars (s.flatMap Writer.encodeGlyph) ++ .char '"' :: rest).length []
      (ofChars (s.flatMap Writer.encodeGlyph) ++ .char '"' :: rest) = some (s, rest) := by
  have enough :
      s.length ≤ (ofChars (s.flatMap Writer.encodeGlyph) ++ .char '"' :: rest).length := by
    have covered : s.length ≤ (s.flatMap Writer.encodeGlyph).length := by
      rw [List.length_flatMap, ← List.length_map (f := fun g => (Writer.encodeGlyph g).length)]
      refine List.length_le_sum_of_one_le _ fun n hn => ?_
      obtain ⟨g, -, rfl⟩ := List.mem_map.1 hn
      exact List.length_pos_iff.2 (encodeGlyph_ne_nil g)
    rw [List.length_append, ofChars, List.length_map]
    omega
  rw [text?_text parted enough, List.reverse_nil, List.nil_append]

theorem fields_cons (level : ℕ) (k : Text) (v : Json) (fs : List (Text × Json)) (s : Text) :
    ofString (Writer.fields level ((k, v) :: fs)) ++ s =
      .char ',' :: (ofString (Writer.newline level) ++ (ofString (Writer.text k) ++
        (ofString ": " ++ (ofString (Writer.value level v) ++
          (ofString (Writer.fields level fs) ++ s))))) := by
  rw [Writer.fields, ofString_append, ofString_append, ofString_append, ofString_append,
    ofString_append, List.append_assoc, List.append_assoc, List.append_assoc, List.append_assoc,
    List.append_assoc]
  rfl

theorem stops_fields (level level' : ℕ) (fs : List (Text × Json)) (s : Text) :
    Stops (ofString (Writer.fields level fs) ++ (ofString (Writer.newline level') ++ s)) := by
  cases fs with
  | nil => exact stops_newline level' s
  | cons f fs =>
    rw [fields_cons]
    exact .comma _

theorem length_fields_cons (level : ℕ) (k : Text) (v : Json) (fs : List (Text × Json)) :
    (Writer.value level v).length + (Writer.fields level fs).length + 1 <
      (Writer.fields level ((k, v) :: fs)).length := by
  have break_pos := length_newline level
  have comma : ",".length = 1 := rfl
  rw [Writer.fields, String.length_append, String.length_append, String.length_append,
    String.length_append, String.length_append]
  omega

theorem fresh_of_nodup {acc fs : Fields} {k : Text} {v : Json}
    (distinct : ((acc ++ (k, v) :: fs).map Prod.fst).Nodup) : k ∉ acc.map Prod.fst := by
  rw [List.map_append, List.nodup_append] at distinct
  exact fun old => distinct.2.2 k old k (List.mem_map_of_mem List.mem_cons_self) rfl

/-- The fields of an object are read back up to the closing brace. -/
theorem fields?_fields {k : Text} {v : Json} {fs : List (Text × Json)}
    (names : ∀ f ∈ (k, v) :: fs, Parted f.1) (back : ∀ f ∈ (k, v) :: fs, ReadsBack f.2)
    (level level' : ℕ) {fuel : ℕ}
    (enough : (Writer.value level v).length + (Writer.fields level fs).length < fuel)
    (acc : Fields) (distinct : ((acc ++ (k, v) :: fs).map Prod.fst).Nodup) (rest : Text) :
    fields? fuel acc (ofString (Writer.text k) ++ (ofString ": " ++
      (ofString (Writer.value level v) ++ (ofString (Writer.fields level fs) ++
        (ofString (Writer.newline level') ++ .char '\x7d' :: rest))))) =
      some (acc ++ (k, v) :: fs, rest) := by
  have colon (s : Text) : skip (ofString ": " ++ s) = .char ':' :: .char ' ' :: s := rfl
  have blank (s : Text) : skip (.char ' ' :: s) = skip s := rfl
  induction fs generalizing k v acc fuel with
  | nil =>
    obtain ⟨fuel, rfl⟩ : ∃ k, fuel = k + 1 := ⟨fuel - 1, by omega⟩
    have fresh := Table.put_of_not_mem acc k v (fresh_of_nodup distinct)
    have name := text?_encoded (names (k, v) List.mem_cons_self)
    have stops := stops_fields level level' [] (.char '\x7d' :: rest)
    have value : ReadsBack v := back (k, v) List.mem_cons_self
    have read := value.value? level (show _ ≤ fuel by omega) stops
    have closing : skip (ofString (Writer.fields level []) ++
        (ofString (Writer.newline level') ++ .char '\x7d' :: rest)) = .char '\x7d' :: rest :=
      skip_newline level' rfl
    rw [ofString_text]
    simp only [fields?, name, Option.bind_eq_bind, Option.bind_some, colon, blank,
      (value.begins level stops).skip, read, closing, fresh]
  | cons f fs ih =>
    obtain ⟨fuel, rfl⟩ : ∃ k, fuel = k + 1 := ⟨fuel - 1, by omega⟩
    obtain ⟨l, w⟩ := f
    have fresh := Table.put_of_not_mem acc k v (fresh_of_nodup distinct)
    have name := text?_encoded (names (k, v) List.mem_cons_self)
    have stops := stops_fields level level' ((l, w) :: fs) (.char '\x7d' :: rest)
    have value : ReadsBack v := back (k, v) List.mem_cons_self
    have read := value.value? level (show _ ≤ fuel by omega) stops
    have shorter := length_fields_cons level l w fs
    have split : acc ++ (k, v) :: (l, w) :: fs = (acc ++ [(k, v)]) ++ (l, w) :: fs := by
      rw [List.append_assoc]
      rfl
    have fields := ih (fun f hf => names f (List.mem_cons_of_mem _ hf))
      (fun f hf => back f (List.mem_cons_of_mem _ hf)) (show _ < fuel by omega)
      (acc ++ [(k, v)]) (split ▸ distinct)
    have comma (s : Text) : skip (.char ',' :: s) = .char ',' :: s := rfl
    have next (s : Text) :
        skip (ofString (Writer.newline level) ++ (ofString (Writer.text l) ++ s)) =
          ofString (Writer.text l) ++ s :=
      skip_newline level (by rw [ofString_text]; rfl)
    have begins := (value.begins level stops).skip
    rw [fields_cons] at read begins ⊢
    rw [ofString_text]
    simp only [fields?, name, Option.bind_eq_bind, Option.bind_some, colon, blank,
      begins, read, comma, next, fresh, fields, split]

theorem value?_arr {s : Text} (begins : Begins s) {fuel : ℕ} {vs : List Json} {rest : Text}
    (level : ℕ) (read : entries? fuel [] s = some (vs, rest)) :
    value? (fuel + 1) (.char '[' :: (ofString (Writer.newline level) ++ s)) =
      some (.arr vs, rest) := by
  have skipped := skip_newline level begins.skip
  obtain ⟨c, t, rfl, other⟩ := begins
  rw [value?, skipped]
  split
  next heq =>
    cases heq
    exact absurd (by decide) other
  next =>
    rw [read]
    rfl

theorem value?_obj {s : Text} (begins : Begins s) {fuel : ℕ} {fs : Fields} {rest : Text}
    (level : ℕ) (read : fields? fuel [] s = some (fs, rest)) :
    value? (fuel + 1) (.char '\x7b' :: (ofString (Writer.newline level) ++ s)) =
      some (.obj fs, rest) := by
  have skipped := skip_newline level begins.skip
  obtain ⟨c, t, rfl, other⟩ := begins
  rw [value?, skipped]
  split
  next heq =>
    cases heq
    exact absurd (by decide) other
  next =>
    rw [read]
    rfl

theorem arr_cons (level : ℕ) (v : Json) (vs : List Json) (s : Text) :
    ofString (Writer.value level (.arr (v :: vs))) ++ s =
      .char '[' :: (ofString (Writer.newline (level + 1)) ++
        (ofString (Writer.value (level + 1) v) ++ (ofString (Writer.entries (level + 1) vs) ++
          (ofString (Writer.newline level) ++ .char ']' :: s)))) := by
  rw [Writer.value]
  simp only [ofString_append, List.append_assoc]
  rfl

theorem obj_cons (level : ℕ) (k : Text) (v : Json) (fs : List (Text × Json)) (s : Text) :
    ofString (Writer.value level (.obj ((k, v) :: fs))) ++ s =
      .char '\x7b' :: (ofString (Writer.newline (level + 1)) ++ (ofString (Writer.text k) ++
        (ofString ": " ++ (ofString (Writer.value (level + 1) v) ++
          (ofString (Writer.fields (level + 1) fs) ++
            (ofString (Writer.newline level) ++ .char '\x7d' :: s)))))) := by
  rw [Writer.value]
  simp only [ofString_append, List.append_assoc]
  rfl

theorem length_arr_cons (level : ℕ) (v : Json) (vs : List Json) :
    (Writer.value (level + 1) v).length + (Writer.entries (level + 1) vs).length + 1 <
      (Writer.value level (.arr (v :: vs))).length := by
  have break_pos := length_newline level
  have brackets : "[".length = 1 ∧ "]".length = 1 := ⟨rfl, rfl⟩
  rw [Writer.value]
  simp only [String.length_append]
  omega

theorem length_obj_cons (level : ℕ) (k : Text) (v : Json) (fs : List (Text × Json)) :
    (Writer.value (level + 1) v).length + (Writer.fields (level + 1) fs).length + 1 <
      (Writer.value level (.obj ((k, v) :: fs))).length := by
  have break_pos := length_newline level
  have braces : "\x7b".length = 1 ∧ "\x7d".length = 1 := ⟨rfl, rfl⟩
  rw [Writer.value]
  simp only [String.length_append]
  omega

theorem ReadsBack.of_succ {v : Json} (begins : ∀ level rest, Stops rest →
      Begins (ofString (Writer.value level v) ++ rest))
    (value : ∀ level fuel rest, (Writer.value level v).length ≤ fuel + 1 → Stops rest →
      Reader.value? (fuel + 1) (ofString (Writer.value level v) ++ rest) = some (v, rest)) :
    ReadsBack v where
  begins level _ stops := begins level _ stops
  value? level fuel rest enough stops := by
    cases fuel with
    | zero =>
      obtain ⟨c, t, filled, -⟩ := begins level [] .nil
      have empty : Writer.value level v = "" := String.length_eq_zero_iff.1 (Nat.le_zero.1 enough)
      rw [empty] at filled
      cases filled
    | succ fuel => exact value level fuel rest enough stops

theorem ReadsBack.of_text {v : Json} {c : Char} {cs : List Char}
    (text : ∀ level, (Writer.value level v).toList = c :: cs)
    (other : c ∉ [' ', '\t', '\n', '\r', ']', '\x7d'])
    (value : ∀ fuel rest, Reader.value? (fuel + 1) (ofChars (c :: cs) ++ rest) = some (v, rest)) :
    ReadsBack v := by
  have written level : ofString (Writer.value level v) = ofChars (c :: cs) :=
    congrArg ofChars (text level)
  refine .of_succ (fun level rest _ => ?_) fun level fuel rest _ _ => ?_
  · exact ⟨c, ofChars cs ++ rest, by rw [written]; rfl, other⟩
  · rw [written]
    exact value fuel rest

/-- **A value that can be written** is read back. -/
theorem readsBack {v : Json} (writable : Writable v) : ReadsBack v := by
  induction writable with
  | null =>
    exact .of_text (fun _ => by rw [Writer.value]; rfl) (by decide) fun _ _ => rfl
  | bool b =>
    cases b with
    | false =>
      exact .of_text (fun _ => by rw [Writer.value]; rfl) (by decide) fun _ _ => rfl
    | true =>
      exact .of_text (fun _ => by rw [Writer.value]; rfl) (by decide) fun _ _ => rfl
  | int short =>
    exact .of_succ (fun _ _ stops => (value?_num (.int short) stops 0).1)
      fun _ fuel _ _ stops => (value?_num (.int short) stops fuel).2
  | float x =>
    exact .of_succ (fun _ _ stops => (value?_num (.float x) stops 0).1)
      fun _ fuel _ _ stops => (value?_num (.float x) stops fuel).2
  | @str s parted =>
    refine .of_succ (fun _ rest _ => ⟨'"', _, ofString_text s rest, by decide⟩)
      fun level fuel rest _ _ => ?_
    have written : ofString (Writer.value level (.str s)) ++ rest = _ := ofString_text s rest
    rw [written, value?, text?_encoded parted]
    rfl
  | @arr vs entries ih =>
    cases vs with
    | nil =>
      exact .of_text (fun _ => by rw [Writer.value]; rfl) (by decide) fun _ _ => rfl
    | cons v vs =>
      refine .of_succ (fun level rest _ => ⟨'[', _, arr_cons level v vs rest, by decide⟩)
        fun level fuel rest enough _ => ?_
      have stops := stops_entries (level + 1) level vs (.char ']' :: rest)
      have shorter := length_arr_cons level v vs
      have read := entries?_entries ih (level + 1) level (show _ < fuel by omega) [] rest
      rw [arr_cons]
      exact value?_arr ((ih v List.mem_cons_self).begins (level + 1) stops) (level + 1) read
  | @obj fs distinct names values ih =>
    cases fs with
    | nil =>
      exact .of_text (fun _ => by rw [Writer.value]; rfl) (by decide) fun _ _ => rfl
    | cons f fs =>
      obtain ⟨k, v⟩ := f
      refine .of_succ (fun level rest _ => ⟨'\x7b', _, obj_cons level k v fs rest, by decide⟩)
        fun level fuel rest enough _ => ?_
      have shorter := length_obj_cons level k v fs
      have read :=
        fields?_fields names ih (level + 1) level (show _ < fuel by omega) [] distinct rest
      rw [obj_cons]
      exact value?_obj ⟨'"', _, ofString_text k _, by decide⟩ (level + 1) read

end Reader

/-- **Writing and reading** a value gives the value. -/
theorem ofText?_toText {v : Json} (writable : Writable v) :
    ofText? (ofString (v.toText ++ "\n")) = some v := by
  have back := readsBack writable
  -- The line feed at the end stops a number, and is skipped as white space.
  have stops : Stops (ofString "\n") := .newline []
  rw [toText, ofString_append, ofText?, (back.begins 0 stops).skip]
  have enough : (Writer.value 0 v).length ≤
      (ofString (Writer.value 0 v) ++ ofString "\n").length + 1 := by
    rw [List.length_append, ofString, ofChars, List.length_map, String.length_toList]
    omega
  rw [back.value? 0 enough stops]
  rfl

namespace Reader

/-! ### What was read -/

theorem suffix_skip (s : Text) : skip s <:+ s := List.dropWhile_suffix _

theorem suffix_of_after? {name s rest : Text} (read : after? name s = some rest) :
    rest <:+ s := by
  fun_induction after? name s with
  | case1 s =>
    cases read
    exact List.suffix_refl _
  | case2 c cs d s _ ih => exact (ih read).trans (List.suffix_cons _ _)
  | case3 => cases read
  | case4 => cases read

theorem writable_of_word? {s rest : Text} {v : Json} (read : word? s = some (v, rest)) :
    Writable v ∧ rest <:+ s := by
  obtain ⟨⟨name, value⟩, known, found⟩ := List.exists_of_findSome?_eq_some read
  obtain ⟨after, matched, place⟩ := Option.map_eq_some_iff.1 found
  cases place
  refine ⟨?_, suffix_of_after? matched⟩
  simp only [words, List.mem_cons, Prod.mk.injEq, List.not_mem_nil, or_false] at known
  rcases known with ⟨-, rfl⟩ | ⟨-, rfl⟩ | ⟨-, rfl⟩ | ⟨-, rfl⟩ | ⟨-, rfl⟩ | ⟨-, rfl⟩
  · exact .null
  · exact .bool true
  · exact .bool false
  · exact .float _
  · exact .float _
  · exact .float _

theorem writable_of_number? {s rest : Text} {n : Number} (read : number? s = some (n, rest)) :
    Writable (.num n) ∧ rest <:+ s := by
  obtain ⟨suffix, short⟩ := suffix_of_number? read
  cases n with
  | int k => exact ⟨.int (short k rfl), suffix⟩
  | float x => exact ⟨.float x, suffix⟩

theorem parted_of_quoted {s t rest : Text} (plain : Plain s)
    (read : text? s.length [] s = some (t, rest)) : Parted t ∧ rest <:+ s :=
  parted_of_text? plain .nil (fun _ none => by cases none) read

/-- What is read with this much fuel can be written. -/
structure Sound (fuel : ℕ) : Prop where
  value {s rest : Text} {v : Json} (plain : Plain s) (read : value? fuel s = some (v, rest)) :
    Writable v ∧ rest <:+ s
  entries {s rest : Text} {acc vs : List Json} (plain : Plain s) (before : Writable (.arr acc))
    (read : entries? fuel acc s = some (vs, rest)) : Writable (.arr vs) ∧ rest <:+ s
  fields {s rest : Text} {acc fs : Fields} (plain : Plain s) (before : Writable (.obj acc))
    (read : fields? fuel acc s = some (fs, rest)) : Writable (.obj fs) ∧ rest <:+ s

variable {fuel : ℕ}

/-- What is left after a separator or a bracket is part of what was left before it. -/
theorem suffix_of_skip {s rest : Text} {c : Char} (skipped : skip s = .char c :: rest) :
    rest <:+ s :=
  (List.suffix_cons _ _).trans (skipped ▸ suffix_skip s)

theorem sound_value (ih : Sound fuel) {s rest : Text} {v : Json} (plain : Plain s)
    (read : value? (fuel + 1) s = some (v, rest)) : Writable v ∧ rest <:+ s := by
  unfold value? at read
  split at read
  next t =>
    obtain ⟨⟨u, after⟩, text, place⟩ := Option.map_eq_some_iff.1 read
    cases place
    have whole := List.suffix_cons (Glyph.char '"') t
    obtain ⟨parted, suffix⟩ := parted_of_quoted (plain.suffix whole) text
    exact ⟨.str parted, suffix.trans whole⟩
  next t =>
    have whole := List.suffix_cons (Glyph.char '[') t
    have inside := (suffix_skip t).trans whole
    split at read
    next closing =>
      cases read
      exact ⟨.noEntries, (suffix_of_skip closing).trans whole⟩
    next =>
      obtain ⟨⟨vs, after⟩, entries, place⟩ := Option.map_eq_some_iff.1 read
      cases place
      obtain ⟨writable, suffix⟩ := ih.entries (plain.suffix inside) .noEntries entries
      exact ⟨writable, suffix.trans inside⟩
  next t =>
    have whole := List.suffix_cons (Glyph.char '\x7b') t
    have inside := (suffix_skip t).trans whole
    split at read
    next closing =>
      cases read
      exact ⟨.noFields, (suffix_of_skip closing).trans whole⟩
    next =>
      obtain ⟨⟨fs, after⟩, fields, place⟩ := Option.map_eq_some_iff.1 read
      cases place
      obtain ⟨writable, suffix⟩ := ih.fields (plain.suffix inside) .noFields fields
      exact ⟨writable, suffix.trans inside⟩
  next =>
    rcases Option.or_eq_some_iff.1 read with word | ⟨-, number⟩
    · exact writable_of_word? word
    · obtain ⟨⟨n, after⟩, number, place⟩ := Option.map_eq_some_iff.1 number
      cases place
      exact writable_of_number? number

theorem sound_entries (ih : Sound fuel) {s rest : Text} {acc vs : List Json} (plain : Plain s)
    (before : Writable (.arr acc)) (read : entries? (fuel + 1) acc s = some (vs, rest)) :
    Writable (.arr vs) ∧ rest <:+ s := by
  simp only [entries?, Option.bind_eq_bind, Option.bind_eq_some_iff] at read
  obtain ⟨⟨v, after⟩, value, read⟩ := read
  obtain ⟨writable, suffix⟩ := ih.value plain value
  cases before with
  | arr entries =>
    have more : ∀ u ∈ v :: acc, Writable u := List.forall_mem_cons.2 ⟨writable, entries⟩
    simp only at read
    split at read
    next t comma =>
      have inside := ((suffix_skip t).trans (suffix_of_skip comma)).trans suffix
      obtain ⟨all, left⟩ := ih.entries (plain.suffix inside) (.arr more) read
      exact ⟨all, left.trans inside⟩
    next t closing =>
      cases read
      refine ⟨.arr fun u hu => more u (List.mem_reverse.1 hu), ?_⟩
      exact (suffix_of_skip closing).trans suffix
    next => cases read

theorem sound_fields (ih : Sound fuel) {s rest : Text} {acc fs : Fields} (plain : Plain s)
    (before : Writable (.obj acc)) (read : fields? (fuel + 1) acc s = some (fs, rest)) :
    Writable (.obj fs) ∧ rest <:+ s := by
  unfold fields? at read
  split at read
  next t =>
    simp only [Option.bind_eq_bind, Option.bind_eq_some_iff] at read
    obtain ⟨⟨name, behind⟩, quoted, read⟩ := read
    have whole := List.suffix_cons (Glyph.char '"') t
    obtain ⟨parted, named⟩ := parted_of_quoted (plain.suffix whole) quoted
    simp only at read
    split at read
    next u colon =>
      simp only [Option.bind_eq_some_iff] at read
      obtain ⟨⟨v, after⟩, value, read⟩ := read
      have start := ((suffix_skip u).trans (suffix_of_skip colon)).trans (named.trans whole)
      obtain ⟨writable, suffix⟩ := ih.value (plain.suffix start) value
      have more := before.put parted writable
      simp only at read
      split at read
      next w comma =>
        have inside := ((suffix_skip w).trans (suffix_of_skip comma)).trans (suffix.trans start)
        obtain ⟨all, left⟩ := ih.fields (plain.suffix inside) more read
        exact ⟨all, left.trans inside⟩
      next w closing =>
        cases read
        exact ⟨more, (suffix_of_skip closing).trans (suffix.trans start)⟩
      next => cases read
    next => cases read
  next => cases read

theorem sound (fuel : ℕ) : Sound fuel := by
  induction fuel with
  | zero => exact ⟨fun _ => nofun, fun _ _ => nofun, fun _ _ => nofun⟩
  | succ fuel ih => exact ⟨sound_value ih, sound_entries ih, sound_fields ih⟩

end Reader

/-- **What is read** from characters can be written. -/
theorem writable_of_ofText? {cs : List Char} {v : Json} (read : ofText? (ofChars cs) = some v) :
    Writable v := by
  have plain : Plain (skip (ofChars cs)) := (plain_ofChars cs).suffix (suffix_skip _)
  simp only [ofText?, Option.bind_eq_bind, Option.bind_eq_some_iff] at read
  obtain ⟨⟨u, rest⟩, value, read⟩ := read
  have writable := ((sound _).value plain value).1
  split at read
  · cases read
    exact writable
  · cases read

end SymbolTrees.Json
