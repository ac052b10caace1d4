import SymbolTrees.Proofs.Path
import SymbolTrees.View.Row

/-!
# Files seen from the root of a workspace

The path from the root of a workspace to a file is shown only where the names of the root are the
first names of the file's path, so that it leads from the root to the file. Its names may be `..`:
a path that starts in the workspace can leave it, and it is shown all the same.
-/

namespace SymbolTrees

/-- The path of the file that the parts of its URI name. -/
def Uri.file (parts : Uri) : Path := .ofText (Uri.Escape.decode parts.path)

theorem Uri.filePath?_eq {uri : Text} {parts : Uri} (h : Uri.ofText uri = .ok parts) :
    Uri.filePath? uri = .ok (if parts.scheme = "file" then some parts.file else none) := by
  unfold filePath?
  rw [h]
  rfl

namespace Path

variable {p directory below : Path}

theorem below?_eq_none_iff : p.below? directory = none ↔ ¬ p.Under directory := by
  rw [below?, Under, ← List.isPrefixOf_iff_prefix]
  split
  next h => exact iff_of_false (Option.some_ne_none _) (not_not_intro h)
  next h => exact iff_of_true rfl h

theorem isProper_of_below? (h : p.IsProper) (hb : p.below? directory = some below) :
    below.IsProper := by
  intro name hn
  obtain ⟨-, -, names⟩ := below?_eq_some hb
  exact h name (names ▸ List.mem_append_right _ hn)

theorem within_of_below? (hb : p.below? directory = some below) : directory.within below = p := by
  obtain ⟨here, anchor, names⟩ := below?_eq_some hb
  rw [within, if_pos here, ← anchor, ← names]

end Path

/-- The URI of the file that a row's detail may show. -/
def Node.detailUri? (node : Node) : Option Text :=
  match node.payload with
  | .call item => some item.uri
  | .located symbol _ => some symbol.location.uri
  | .document _ => none

/-- What the detail of a node shows unless it shows where its file is. -/
def Node.givenDetail (node : Node) : Text := node.payload.detail?.getD []

theorem Node.rowDetail_of_detailUri? (node : Node) {uri : Text} {root : Path}
    {place : Whereabouts} (h : node.detailUri? = some uri)
    (found : Whereabouts.ofUri uri root = .ok place) :
    node.rowDetail root = .ok (if place.isInside then place.text else node.givenDetail) := by
  obtain ⟨payload, depth, expanded, pending, callRanges, children⟩ := node
  cases payload with
  | document symbol => cases h
  | call item | located symbol item =>
    obtain rfl := Option.some.inj h
    unfold rowDetail
    simp only [bind, Except.bind, found]
    rfl

namespace Whereabouts

/-- What is told of the file behind the parts of a URI: a text, and whether it leads there from the
root. -/
structure Tells (root : Path) (parts : Uri) (text : Text) (inside : Bool) : Prop where
  /-- The text leads from the root to the file. -/
  leads : inside = true → parts.scheme = "file" ∧ root.within (.ofText text) = parts.file
  /-- The file is in the workspace just if the text returns there. -/
  contained : inside = true →
    (parts.file.lexical.Under root ↔ Path.Returns root (.ofText text))
  /-- So it is where the text does not lead up. -/
  descends : inside = true → Path.up ∉ (Path.ofText text).names → parts.file.lexical.Under root
  /-- Any other text of a file is its path, and that does not start with the root. -/
  otherwise : inside = false → parts.scheme = "file" →
    text = parts.file.text ∧ ¬ parts.file.Under root

theorem tells_inside {root below : Path} {parts : Uri} (straight : Path.up ∉ root.names)
    (isFile : parts.scheme = "file") (found : parts.file.below? root = some below) :
    Tells root parts below.text true := by
  have read : Path.ofText below.text = below :=
    Path.ofText_text (Path.isProper_of_below? (Path.isProper_ofText _) found)
  have joined := Path.within_of_below? found
  have contained : parts.file.lexical.Under root ↔ Path.Returns root below := by
    rw [← joined]
    exact Path.under_lexical_within straight (Path.below?_eq_some found).1
  rw [← read] at joined contained
  exact ⟨fun _ => ⟨isFile, joined⟩, fun _ => contained,
    fun _ down => contained.2 (Path.returns_of_notMem down),
    nofun⟩

theorem tells_not_inside {root : Path} {parts : Uri} {text : Text}
    (told : parts.scheme = "file" → text = parts.file.text ∧ ¬ parts.file.Under root) :
    Tells root parts text false where
  leads := nofun
  contained := nofun
  descends := nofun
  otherwise _ := told

/-- **Where a document lies** is told of every URI that can be read. What is shown as a path from
the root of the workspace leads from there to the file, and the file is in the workspace unless that
path leaves it and does not return; what is shown of any other file is its whole path. The detail of
a node shows the path from the root and nothing else of the file. -/
theorem ofUri_tells {uri : Text} {parts : Uri} {root : Path} (readable : Uri.ofText uri = .ok parts)
    (straight : Path.up ∉ root.names) :
    ∃ place, ofUri uri root = .ok place ∧ Tells root parts place.text place.isInside ∧
      ∀ node : Node, node.detailUri? = some uri →
        node.rowDetail root = .ok (if place.isInside then place.text else node.givenDetail) := by
  have told : ∃ place, ofUri uri root = .ok place ∧
      Tells root parts place.text place.isInside := by
    have path := Uri.filePath?_eq readable
    unfold ofUri
    rw [path]
    by_cases isFile : parts.scheme = "file"
    · rw [if_pos isFile]
      cases found : parts.file.below? root with
      | some below =>
        refine ⟨inside below, ?_, tells_inside straight isFile found⟩
        simp only [bind, Except.bind, found]
        rfl
      | none =>
        refine ⟨outside parts.file, ?_, tells_not_inside fun _ => ⟨rfl, ?_⟩⟩
        · simp only [bind, Except.bind, found]
          rfl
        · exact Path.below?_eq_none_iff.1 found
    · rw [if_neg isFile]
      exact ⟨elsewhere uri, rfl, tells_not_inside fun file => absurd file isFile⟩
  obtain ⟨place, found, tells⟩ := told
  exact ⟨place, found, tells, fun node hn => node.rowDetail_of_detailUri? hn found⟩

/-- A file beside the workspace, by a way that starts in it. -/
def strayUri : Text := "file:///ws/../x"

def strayRoot : Path := ⟨.root, ["ws"]⟩

theorem ofUri_tells_stray : ∃ parts, Uri.ofText strayUri = .ok parts ∧ Path.up ∉ strayRoot.names ∧
    ∃ place, ofUri strayUri strayRoot = .ok place ∧
      Tells strayRoot parts place.text place.isInside := by
  have readable : Uri.ofText strayUri = .ok ⟨"file", [], "/ws/../x"⟩ := by decide +kernel
  have straight : Path.up ∉ strayRoot.names := by decide
  obtain ⟨place, found, tells, -⟩ := ofUri_tells readable straight
  exact ⟨_, readable, straight, place, found, tells⟩

/-- The path of a file outside the workspace is shown as one from its root. -/
theorem shown_stray : ∃ parts below, Uri.ofText strayUri = .ok parts ∧
    ofUri strayUri strayRoot = .ok (inside below) ∧
    (∀ node : Node, node.detailUri? = some strayUri →
      node.rowDetail strayRoot = .ok below.text) ∧
    ¬ parts.file.lexical.Under strayRoot := by
  have found : ofUri strayUri strayRoot = .ok (inside ⟨.here, ["..", "x"]⟩) := by decide +kernel
  refine ⟨⟨"file", [], "/ws/../x"⟩, _, by decide +kernel, found,
    fun node hn => node.rowDetail_of_detailUri? hn found, ?_⟩
  rintro ⟨-, start⟩
  exact absurd start (by decide +kernel)

end Whereabouts

end SymbolTrees
