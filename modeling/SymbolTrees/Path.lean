import SymbolTrees.Malformed
import SymbolTrees.Text.Basic
import SymbolTrees.Text.Split
import SymbolTrees.Text.Utf8

/-!
Paths of files. A path is kept without empty names and without the name `.`; the name `..` stays
until the path is resolved.
-/

namespace SymbolTrees

/-- Where a path starts. -/
inductive Anchor where
  /-- The directory that it is read in. -/
  | here
  /-- The root, written with one slash. -/
  | root
  /-- The root, written with two slashes, which stay apart from one. -/
  | doubleRoot
deriving Repr, DecidableEq, Inhabited

structure Path where
  anchor : Anchor
  names : List Text
deriving Repr, DecidableEq, Inhabited

namespace Path

/-- What stands between two names. -/
def slash : Glyph := .char '/'

/-- The name that leads up. -/
def up : Text := [.char '.', .char '.']

def anchorOf (s : Text) : Anchor :=
  match (s.takeWhile (· == slash)).length with
  | 0 => .here
  | 2 => .doubleRoot
  | _ => .root

/-- The path that a text writes. -/
def ofText (s : Text) : Path :=
  ⟨anchorOf s, (Text.pieces slash s).filter fun name => name != [] && name != [.char '.']⟩

def text (p : Path) : Text :=
  match p.anchor, p.names with
  | .here, [] => [.char '.']
  | .here, names => Text.join slash names
  | .root, names => slash :: Text.join slash names
  | .doubleRoot, names => slash :: slash :: Text.join slash names

/-- The last name of the path, empty where there is none. -/
def fileName (p : Path) : Text := p.names.getLast?.getD []

/-- The path as seen from a directory, name by name, if it leads below it. -/
def below? (p directory : Path) : Option Path :=
  if p.anchor = directory.anchor ∧ directory.names.isPrefixOf p.names then
    some ⟨.here, p.names.drop directory.names.length⟩
  else none

/-- One step down from a directory given by its names, or up where the step is `..`. -/
def walk (names : List Text) (name : Text) : List Text :=
  if name = up then names.dropLast else names ++ [name]

/-- The names from the root, with every `..` taken together with the name before it. -/
def resolveNames (names : List Text) : List Text := names.foldl walk []

/-- The bytes of one place of a name. A name of a file that is no UTF-8 shows its bytes from `80` to
`FF` as the halves from `DC80` to `DCFF`; no other half has bytes. -/
def bytes? : Glyph → Option (List Nat)
  | .char c => some (Text.Utf8.encode c)
  | .half n => if 0x480 ≤ n.val ∧ n.val < 0x500 then some [n.val - 0x400] else none

/-- The bytes of a name. -/
def nameBytes? (name : Text) : Option (List Nat) := (name.mapM bytes?).map List.flatten

/-- Why no file can have a name. -/
def objection? (name : Text) : Option Malformed :=
  match nameBytes? name with
  | none => some .loneHalf
  | some bytes => if bytes.contains 0 then some .badPath else none

/-- The path from the root, read in the directory `here`. Nothing on it is looked up. -/
def resolve (p here : Path) : Except Malformed Path :=
  let names := if p.anchor = .here then here.names ++ p.names else p.names
  match names.findSome? objection? with
  | some reason => throw reason
  | none => pure ⟨.root, resolveNames names⟩

/-- The names below a directory are those of the path after those of the directory. -/
theorem below?_eq_some {p directory below : Path} (h : p.below? directory = some below) :
    below.anchor = .here ∧ p.anchor = directory.anchor ∧
      p.names = directory.names ++ below.names := by
  unfold below? at h
  split at h
  · next hp =>
    obtain ⟨more, hm⟩ := List.isPrefixOf_iff_prefix.1 hp.2
    cases h
    exact ⟨rfl, hp.1, by rw [← hm, List.drop_left]⟩
  · cases h

theorem mem_of_mem_walk {names : List Text} {name entry : Text} (h : entry ∈ walk names name) :
    entry ∈ names ∨ (entry = name ∧ name ≠ up) := by
  unfold walk at h
  split at h
  · exact .inl ((List.dropLast_sublist names).subset h)
  · next hn => simpa [hn] using h

/-- No resolved path goes up. -/
theorem not_mem_resolveNames (names : List Text) : up ∉ resolveNames names := by
  have go : ∀ (rest done : List Text), up ∉ done → up ∉ rest.foldl walk done := by
    intro rest
    induction rest with
    | nil => exact fun _ h => h
    | cons name rest ih =>
      intro done h
      refine ih _ fun hm => ?_
      cases mem_of_mem_walk hm with
      | inl hd => exact h hd
      | inr hn => exact hn.2 hn.1.symm
  exact go names [] (by simp)

end Path

end SymbolTrees
