import Mathlib.Data.List.Basic
import SymbolTrees.Path

/-!
# Paths of files

The text of a path is read back as that path (`Path.ofText_text`), for no name on it is empty or
holds a slash. A way that goes up with `..` may leave the directory in which it starts: how far it
goes up, and which way it then goes down, says where it ends (`Path.resolveNames_append`).
-/

namespace SymbolTrees.Path

variable {p directory : Path} {names : List Text} {name : Text}

/-! ### The text of a path -/

/-- What can stand between two slashes of a path: not nothing, and not the point that leads
nowhere. -/
structure IsName (name : Text) : Prop where
  full : name ≠ []
  moves : name ≠ [.char '.']
  whole : slash ∉ name

/-- All names of the path are such. -/
def IsProper (p : Path) : Prop := ∀ name ∈ p.names, IsName name

theorem isProper_ofText (s : Text) : (ofText s).IsProper := by
  intro name h
  obtain ⟨piece, kept⟩ := List.mem_filter.1 h
  simp only [Bool.and_eq_true, bne_iff_ne] at kept
  exact ⟨kept.1, kept.2, Text.not_mem_of_mem_pieces slash s name piece⟩

theorem filter_pieces_join (h : ∀ name ∈ names, IsName name) :
    ((Text.pieces slash (Text.join slash names)).filter
      fun name => name != [] && name != [.char '.']) = names := by
  cases names with
  | nil => rfl
  | cons first rest =>
    rw [Text.pieces_join_of_notMem (List.cons_ne_nil first rest) fun name hm => (h name hm).whole]
    refine List.filter_eq_self.2 fun name hm => ?_
    simp [(h name hm).full, (h name hm).moves]

theorem takeWhile_join (h : ∀ name ∈ names, IsName name) :
    (Text.join slash names).takeWhile (· == slash) = [] := by
  cases names with
  | nil => rfl
  | cons first rest =>
    have hfirst := h first List.mem_cons_self
    obtain ⟨c, more, rfl⟩ := List.exists_cons_of_ne_nil hfirst.full
    have start : c ≠ slash := fun e => hfirst.whole (e ▸ List.mem_cons_self)
    rw [Text.join_cons_cons, List.takeWhile_cons_of_neg (by simpa using start)]

theorem pieces_slash_cons (s : Text) : Text.pieces slash (slash :: s) = [] :: Text.pieces slash s :=
  if_pos rfl

/-- **The text of a path** is read back as the path. -/
theorem ofText_text (h : p.IsProper) : ofText p.text = p := by
  obtain ⟨anchor, names⟩ := p
  have read := filter_pieces_join h
  have start := takeWhile_join h
  cases anchor with
  | here =>
    cases names with
    | nil => rfl
    | cons first rest =>
      show Path.mk (anchorOf (Text.join slash (first :: rest))) _ = _
      rw [anchorOf, start]
      exact congrArg _ read
  | root =>
    show Path.mk (anchorOf (slash :: Text.join slash names)) _ = _
    rw [anchorOf, List.takeWhile_cons_of_pos rfl, start]
    show Path.mk .root ((Text.pieces slash (slash :: Text.join slash names)).filter _) = _
    rw [pieces_slash_cons]
    exact congrArg _ read
  | doubleRoot =>
    show Path.mk (anchorOf (slash :: slash :: Text.join slash names)) _ = _
    rw [anchorOf, List.takeWhile_cons_of_pos rfl, List.takeWhile_cons_of_pos rfl, start]
    show Path.mk .doubleRoot
      ((Text.pieces slash (slash :: slash :: Text.join slash names)).filter _) = _
    rw [pieces_slash_cons, pieces_slash_cons]
    exact congrArg _ read

/-! ### Ways up and down -/

/-- Where a way leads from the place where it starts: so many steps up, and then these names
down. -/
structure Way where
  ups : Nat
  downs : List Text
deriving DecidableEq

/-- One more step. A step up takes back the last step down, and leads further up where none is
left. -/
def Way.step (way : Way) (name : Text) : Way :=
  if name = up then
    if way.downs = [] then ⟨way.ups + 1, []⟩ else ⟨way.ups, way.downs.dropLast⟩
  else ⟨way.ups, way.downs ++ [name]⟩

def way (names : List Text) : Way := names.foldl Way.step ⟨0, []⟩

/-- The names of the directory that is so many steps up. -/
def above (base : List Text) (ups : Nat) : List Text := base.take (base.length - ups)

theorem dropLast_above (base : List Text) (ups : Nat) :
    (above base ups).dropLast = above base (ups + 1) := by
  rw [above, above, List.dropLast_eq_take, List.length_take, List.take_take]
  exact congrArg (base.take ·) (by omega)

theorem walk_above (base : List Text) (way : Way) (name : Text) :
    walk (above base way.ups ++ way.downs) name =
      above base (way.step name).ups ++ (way.step name).downs := by
  obtain ⟨ups, downs⟩ := way
  unfold walk Way.step
  by_cases h : name = up
  · rw [if_pos h, if_pos h]
    by_cases hd : downs = []
    · rw [if_pos hd, hd, List.append_nil, List.append_nil, dropLast_above]
    · rw [if_neg hd, List.dropLast_append_of_ne_nil hd]
  · rw [if_neg h, if_neg h, List.append_assoc]

theorem resolveNames_append (base names : List Text) :
    resolveNames (base ++ names) =
      above (resolveNames base) (way names).ups ++ (way names).downs := by
  -- The steps so far have gone some names up from the base and then some down.
  have go (rest : List Text) (way : Way) :
      rest.foldl walk (above (resolveNames base) way.ups ++ way.downs) =
        above (resolveNames base) (rest.foldl Way.step way).ups ++
          (rest.foldl Way.step way).downs := by
    induction rest generalizing way with
    | nil => rfl
    | cons name rest ih => rw [List.foldl_cons, List.foldl_cons, walk_above, ih]
  have start := go names ⟨0, []⟩
  rw [List.append_nil, above, Nat.sub_zero, List.take_length] at start
  rw [resolveNames, List.foldl_append, ← resolveNames, start]
  rfl

/-- Names that do not lead up are those of the place where they lead. -/
theorem resolveNames_of_notMem (h : up ∉ names) : resolveNames names = names := by
  have go (rest done : List Text) (h : up ∉ rest) : rest.foldl walk done = done ++ rest := by
    induction rest generalizing done with
    | nil => exact (List.append_nil done).symm
    | cons name rest ih =>
      rw [List.mem_cons, not_or] at h
      rw [List.foldl_cons, walk, if_neg (Ne.symm h.1), ih _ h.2, List.append_assoc,
        List.singleton_append]
  exact go names [] h

/-! ### Files in a directory -/

/-- The path with every `..` taken together with the name before it. -/
def lexical (p : Path) : Path := ⟨p.anchor, resolveNames p.names⟩

/-- The path is that of the directory, or leads on from there. -/
def Under (p directory : Path) : Prop := p.anchor = directory.anchor ∧ directory.names <+: p.names

/-- A path read in a directory. -/
def within (directory p : Path) : Path :=
  if p.anchor = .here then ⟨directory.anchor, directory.names ++ p.names⟩ else p

/-- The way goes down again into all that it went up out of. -/
def Returns (directory p : Path) : Prop :=
  directory.names.drop (directory.names.length - (way p.names).ups) <+: (way p.names).downs

/-- **A way that starts in a directory** ends in it just if it returns to it. -/
theorem under_lexical_within (straight : up ∉ directory.names) (h : p.anchor = .here) :
    (directory.within p).lexical.Under directory ↔ Returns directory p := by
  have ends : (directory.within p).lexical =
      ⟨directory.anchor, above directory.names (way p.names).ups ++ (way p.names).downs⟩ := by
    rw [within, if_pos h, lexical, resolveNames_append, resolveNames_of_notMem straight]
  have split : above directory.names (way p.names).ups ++
      directory.names.drop (directory.names.length - (way p.names).ups) = directory.names :=
    List.take_append_drop _ _
  rw [ends, Returns, ← List.prefix_append_right_inj (above directory.names (way p.names).ups),
    split]
  exact and_iff_right rfl

theorem way_of_notMem (h : up ∉ names) : way names = ⟨0, names⟩ := by
  have go (rest downs : List Text) (h : up ∉ rest) :
      rest.foldl Way.step ⟨0, downs⟩ = ⟨0, downs ++ rest⟩ := by
    induction rest generalizing downs with
    | nil => rw [List.foldl_nil, List.append_nil]
    | cons name rest ih =>
      rw [List.mem_cons, not_or] at h
      rw [List.foldl_cons, Way.step, if_neg (Ne.symm h.1), ih _ h.2, List.append_assoc,
        List.singleton_append]
  exact go names [] h

/-- A way that never goes up returns. -/
theorem returns_of_notMem (h : up ∉ p.names) : Returns directory p := by
  rw [Returns, way_of_notMem h, Nat.sub_zero, List.drop_length]
  exact List.nil_prefix

end SymbolTrees.Path
