import SymbolTrees.Proofs.Path
import SymbolTrees.Uri.Basic

/-!
# URIs of files

The path behind a `file` URI is read back from it (`Uri.filePath?_ofPath`). What is escaped holds
nothing but letters, digits, the percent sign and the few marks that stand for themselves, none of
which ends a part of a URI, so a path may hold any character whatever.
-/

namespace SymbolTrees

open SymbolTrees.Text

/-! ### Paths of characters -/

/-- A character that a name of a file can hold. -/
def Glyph.IsNameable (g : Glyph) : Prop := ∃ c, c ≠ '\x00' ∧ g = .char c

namespace Path

/-- A text that names of files can hold. -/
def IsNameable (t : Text) : Prop := ∀ g ∈ t, g.IsNameable

theorem exists_chars {t : Text} (h : IsNameable t) : ∃ s, '\x00' ∉ s ∧ t = ofChars s := by
  induction t with
  | nil => exact ⟨[], List.not_mem_nil, rfl⟩
  | cons g t ih =>
    obtain ⟨⟨c, hc, rfl⟩, hrest⟩ := List.forall_mem_cons.1 h
    obtain ⟨s, hs, rfl⟩ := ih hrest
    exact ⟨c :: s, by simp [hs, hc.symm], rfl⟩

theorem isNameable_ofChars {s : List Char} (h : '\x00' ∉ s) : IsNameable (ofChars s) := by
  intro g hg
  obtain ⟨c, hc, rfl⟩ := List.mem_map.1 hg
  exact ⟨c, fun e => h (e ▸ hc), rfl⟩

theorem isNameable_of_mem_ofText {t name : Text} (h : IsNameable t)
    (hn : name ∈ (ofText t).names) : IsNameable name :=
  fun g hg => h g (mem_of_mem_pieces (List.mem_filter.1 hn).1 hg)

/-- A path from the root is written as a slash and more characters that names can hold. -/
theorem exists_text {p : Path} (root : p.anchor = .root)
    (h : ∀ name ∈ p.names, IsNameable name) : ∃ s, p.text = ofChars ('/' :: s) := by
  have rest : IsNameable (join slash p.names) := by
    intro g hg
    obtain rfl | ⟨name, hn, hg⟩ := mem_join hg
    · exact ⟨'/', by decide, rfl⟩
    · exact h name hn g hg
  obtain ⟨s, -, hs⟩ := exists_chars rest
  refine ⟨s, ?_⟩
  unfold text
  rw [root]
  exact congrArg (slash :: ·) hs

theorem zero_notMem_encode {c : Char} (h : c ≠ '\x00') : 0 ∉ Utf8.encode c := by
  intro hz
  have positive : c.toNat ≠ 0 := fun e => h (by rw [← Char.ofNat_toNat c, e])
  unfold Utf8.encode at hz
  simp only at hz
  repeat' split at hz
  all_goals
    simp only [List.mem_cons, List.not_mem_nil, or_false] at hz
    omega

theorem nameBytes?_ofChars (s : List Char) :
    nameBytes? (ofChars s) = some (s.flatMap Utf8.encode) := by
  have bytes : (ofChars s).mapM bytes? = some (s.map Utf8.encode) := by
    induction s with
    | nil => rfl
    | cons c s ih =>
      unfold ofChars at ih ⊢
      rw [List.map_cons, List.mapM_cons, ih]
      rfl
  rw [nameBytes?, bytes, Option.map_some, List.flatMap_def]

/-- Nothing is wrong with a name that holds characters and no null. -/
theorem objection?_eq_none {name : Text} (h : IsNameable name) : objection? name = none := by
  obtain ⟨s, hs, rfl⟩ := exists_chars h
  have zero : 0 ∉ s.flatMap Utf8.encode := by
    rw [List.mem_flatMap]
    rintro ⟨c, hc, hz⟩
    exact zero_notMem_encode (fun e => hs (e ▸ hc)) hz
  unfold objection?
  rw [nameBytes?_ofChars]
  simp [zero]

theorem mem_of_mem_resolveNames {names : List Text} {name : Text}
    (h : name ∈ resolveNames names) : name ∈ names := by
  have go (rest done : List Text) (h : name ∈ rest.foldl walk done) :
      name ∈ done ∨ name ∈ rest := by
    induction rest generalizing done with
    | nil => exact .inl h
    | cons next rest ih =>
      rcases ih _ h with h | h
      · rcases mem_of_mem_walk h with h | ⟨rfl, -⟩
        · exact .inl h
        · exact .inr List.mem_cons_self
      · exact .inr (List.mem_cons_of_mem _ h)
  exact (go names [] h).resolve_left List.not_mem_nil

theorem resolve_eq {p here : Path} (absolute : p.anchor ≠ .here)
    (h : ∀ name ∈ p.names, IsNameable name) :
    p.resolve here = .ok ⟨.root, resolveNames p.names⟩ := by
  have unopposed : p.names.findSome? objection? = none :=
    List.findSome?_eq_none_iff.2 fun name hn => objection?_eq_none (h name hn)
  rw [resolve, if_neg absolute]
  simp only [unopposed]
  rfl

end Path

namespace Uri

open SymbolTrees.Path (slash)

/-! ### What is escaped -/

theorem isPlain_hexDigit : ∀ n < 0x10, Escape.isPlain (Escape.hexDigit n) = true := by decide

/-- Escapes hold no character that would have to be escaped but the percent sign. -/
theorem isPlain_of_mem_encode {s : List Char} {c : Char} (h : c ∈ Escape.encode s) :
    Escape.isPlain c = true ∨ c = '%' := by
  obtain ⟨d, -, hd⟩ := List.mem_flatMap.1 h
  split at hd
  next plain => exact .inl (List.mem_singleton.1 hd ▸ plain)
  next =>
    obtain ⟨b, hb, hc⟩ := List.mem_flatMap.1 hd
    have hlt := Utf8.lt_of_mem_encode hb
    simp only [Escape.encodeByte, List.mem_cons, List.not_mem_nil, or_false] at hc
    rcases hc with rfl | rfl | rfl
    · exact .inr rfl
    · exact .inl (isPlain_hexDigit _ (by omega))
    · exact .inl (isPlain_hexDigit _ (by omega))

theorem encode_cons_slash (s : List Char) : Escape.encode ('/' :: s) = '/' :: Escape.encode s := rfl

/-- The URI of a file with the path `s`. -/
def ofFile (s : List Char) : Text := "file://" ++ ofChars (Escape.encode s)

theorem ofFile_eq (s : List Char) : ofFile s =
    ("file" : Text) ++ .char ':' :: slash :: slash :: ofChars (Escape.encode s) := rfl

/-- A URI of a file has no layout that could be lost. -/
theorem clean_ofFile (s : List Char) : clean (ofFile s) = ofFile s := by
  have start : (ofFile s).dropWhile (·.code ≤ 0x20) = ofFile s := by
    rw [ofFile_eq]
    exact List.dropWhile_cons_of_neg (by decide)
  rw [clean, start]
  refine List.filter_eq_self.2 fun g hg => ?_
  rcases List.mem_append.1 hg with hg | hg
  · exact (by decide : ∀ g ∈ ("file://" : Text), (!isLayout g.toChar) = true) g hg
  · obtain ⟨c, hc, rfl⟩ := List.mem_map.1 hg
    show (!isLayout c) = true
    rcases isPlain_of_mem_encode hc with plain | rfl
    · cases layout : isLayout c with
      | false => rfl
      | true =>
        simp only [isLayout, Bool.or_eq_true, beq_iff_eq] at layout
        rcases layout with (rfl | rfl) | rfl <;> cases plain
    · rfl

theorem notMem_ofChars_encode (s : List Char) {d : Char} (escaped : Escape.isPlain d = false)
    (other : d ≠ '%') : Glyph.char d ∉ ofChars (Escape.encode s) := by
  intro h
  obtain ⟨c, hc, e⟩ := List.mem_map.1 h
  obtain rfl := Glyph.char.inj e
  rcases isPlain_of_mem_encode hc with plain | rfl
  · rw [plain] at escaped
    cases escaped
  · exact other rfl

theorem splitScheme_ofFile (s : List Char) :
    splitScheme (ofFile s) =
      (("file" : Text), slash :: slash :: ofChars (Escape.encode s)) := by
  have noColon : Glyph.char ':' ∉ ("file" : Text) := by decide
  have parts := cut_append_cons (slash :: slash :: ofChars (Escape.encode s)) noColon
  rw [← ofFile_eq] at parts
  have colon : (ofFile s).contains (.char ':') = true := by
    rw [ofFile_eq, List.contains_iff_mem]
    exact List.mem_append_right _ List.mem_cons_self
  simp only [splitScheme, parts, colon]
  rfl

/-! ### Reading back -/

/-- The parts of the URI of a file are the scheme and the escaped path. -/
theorem ofText_ofFile (s : List Char) :
    ofText (ofFile ('/' :: s)) = .ok ⟨"file", [], ofChars (Escape.encode ('/' :: s))⟩ := by
  have host : splitHost (slash :: slash :: ofChars (Escape.encode ('/' :: s))) =
      ([], ofChars (Escape.encode ('/' :: s))) := by
    rw [encode_cons_slash]
    rfl
  have hash := cut_of_notMem (notMem_ofChars_encode ('/' :: s) (d := '#') rfl (by decide))
  have mark := cut_of_notMem (notMem_ofChars_encode ('/' :: s) (d := '?') rfl (by decide))
  unfold ofText
  simp only [clean_ofFile, splitScheme_ofFile, host, hash, mark]
  rfl

theorem filePath?_ofFile (s : List Char) :
    filePath? (ofFile ('/' :: s)) = .ok (some (Path.ofText (ofChars ('/' :: s)))) := by
  unfold filePath?
  rw [ofText_ofFile]
  show Except.ok (some (Path.ofText (Escape.decode (ofChars (Escape.encode ('/' :: s)))))) = _
  rw [Escape.decode_encode]

/-- A text that writes a path from the root: it starts with a slash and holds characters, of which
none is the null character. -/
structure WritesPath (s : List Char) : Prop where
  absolute : s.head? = some '/'
  noNull : '\x00' ∉ s

/-- A path from the root that leads straight to where it leads. -/
structure IsResolved (p : Path) : Prop where
  anchor : p.anchor = .root
  proper : p.IsProper
  straight : Path.up ∉ p.names
  nameable : ∀ name ∈ p.names, Path.IsNameable name

theorem anchor_ofText {s : List Char} (absolute : s.head? = some '/') :
    (Path.ofText (ofChars s)).anchor ≠ .here := by
  obtain ⟨rest, rfl⟩ := List.head?_eq_some_iff.1 absolute
  show Path.anchorOf (slash :: ofChars rest) ≠ .here
  rw [Path.anchorOf, List.takeWhile_cons_of_pos rfl, List.length_cons]
  split
  next none => omega
  next => decide
  next => decide

/-- Every such text is resolved, and nothing that a name can hold stands in the way. -/
theorem exists_resolve (here : Path) {s : List Char} (h : WritesPath s) :
    ∃ p, (Path.ofText (ofChars s)).resolve here = .ok p ∧ IsResolved p := by
  have nameable : ∀ name ∈ (Path.ofText (ofChars s)).names, Path.IsNameable name :=
    fun name hn => Path.isNameable_of_mem_ofText (Path.isNameable_ofChars h.noNull) hn
  refine ⟨_, Path.resolve_eq (anchor_ofText h.absolute) nameable, rfl, ?_,
    Path.not_mem_resolveNames _, ?_⟩
  · exact fun name hn => Path.isProper_ofText _ name (Path.mem_of_mem_resolveNames hn)
  · exact fun name hn => nameable name (Path.mem_of_mem_resolveNames hn)

theorem resolve_of_isResolved (here : Path) {p : Path} (h : IsResolved p) :
    p.resolve here = .ok p := by
  have absolute : p.anchor ≠ .here := by
    rw [h.anchor]
    decide
  rw [Path.resolve_eq absolute h.nameable, Path.resolveNames_of_notMem h.straight, ← h.anchor]

/-- The URI of whatever resolves to a path names that path. -/
theorem exists_ofPath {here q p : Path} (resolved : q.resolve here = .ok p) (h : IsResolved p) :
    ∃ uri, ofPath here q = .ok uri ∧ filePath? uri = .ok (some p) := by
  obtain ⟨s, written⟩ := Path.exists_text h.anchor h.nameable
  refine ⟨ofFile ('/' :: s), ?_, ?_⟩
  · have chars : chars? p.text = some ('/' :: s) := by rw [written, chars?_ofChars]
    unfold ofPath
    rw [resolved]
    simp only [bind, Except.bind, chars]
    rfl
  · rw [filePath?_ofFile, ← written, Path.ofText_text h.proper]

/-- **From a path to its URI and back.** Every text that writes a path from the root has a URI, and
the path behind that URI is the one to which the text resolves. A path that is resolved already is
the path behind its own URI. So paths that resolve to different ones have different URIs. -/
theorem filePath?_ofPath (here : Path) :
    (∀ s, WritesPath s → ∃ p uri, (Path.ofText (ofChars s)).resolve here = .ok p ∧ IsResolved p ∧
      ofPath here (.ofText (ofChars s)) = .ok uri ∧ filePath? uri = .ok (some p)) ∧
    (∀ p, IsResolved p → ∃ uri, ofPath here p = .ok uri ∧ filePath? uri = .ok (some p)) ∧
    ∀ s t, WritesPath s → WritesPath t →
      ofPath here (.ofText (ofChars s)) = ofPath here (.ofText (ofChars t)) →
      (Path.ofText (ofChars s)).resolve here = (Path.ofText (ofChars t)).resolve here := by
  have round : ∀ s, WritesPath s → ∃ p uri, (Path.ofText (ofChars s)).resolve here = .ok p ∧
      IsResolved p ∧ ofPath here (.ofText (ofChars s)) = .ok uri ∧
      filePath? uri = .ok (some p) := by
    intro s hs
    obtain ⟨p, resolved, hp⟩ := exists_resolve here hs
    obtain ⟨uri, written, read⟩ := exists_ofPath resolved hp
    exact ⟨p, uri, resolved, hp, written, read⟩
  refine ⟨round, fun p hp => exists_ofPath (resolve_of_isResolved here hp) hp, ?_⟩
  intro s t hs ht same
  obtain ⟨p, uri, resolved, -, written, read⟩ := round s hs
  obtain ⟨p', uri', resolved', -, written', read'⟩ := round t ht
  rw [written, written'] at same
  rw [Except.ok.inj same, read'] at read
  rw [resolved, resolved', Option.some.inj (Except.ok.inj read)]

/-- A path that holds what other texts give a meaning to. -/
def knottyPath : List Char := "//a b/./%41;[x]\\/../é?#%2e%2e/".toList

theorem filePath?_ofPath_knottyPath : WritesPath knottyPath ∧
    ∃ p uri, (Path.ofText (ofChars knottyPath)).resolve ⟨.root, []⟩ = .ok p ∧ IsResolved p ∧
      ofPath ⟨.root, []⟩ (.ofText (ofChars knottyPath)) = .ok uri ∧
      filePath? uri = .ok (some p) := by
  have writes : WritesPath knottyPath := ⟨by decide, by decide⟩
  exact ⟨writes, (filePath?_ofPath ⟨.root, []⟩).1 knottyPath writes⟩

end Uri

end SymbolTrees
