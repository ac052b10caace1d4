import Mathlib.Data.List.Induction
import Mathlib.Data.List.Lex
import SymbolTrees.Proofs.View

/-!
# A view is what there is to see

Which nodes of a tree are to be seen is said by its paths alone: the root is, and below the root or
an expanded node that is to be seen, all children. In a tree whose depths count the steps from the
root, a view has a row for each of these nodes and for no other, a node before those below it and
siblings in their order; and the numbers of the rows are those of the lines.
-/

namespace SymbolTrees

namespace Node

/-- The path leads from `root` to a node that is to be seen. -/
inductive Shown (root : Node) : List Nat → Prop
  | root : Shown root []
  | child {path : List Nat} {i : Nat} {n : Node} (above : Shown root path)
      (there : root.at? path = some n) (opened : path = [] ∨ n.expanded)
      (inside : i < n.children.length) : Shown root (path ++ [i])

/-- The depths count the steps from the root. -/
structure Counted (root : Node) : Prop where
  first : root.depth = 0
  below : root.All fun n => ∀ c ∈ n.children, c.depth = n.depth + 1

variable {n m root : Node} {path : List Nat}

theorem open_concat {i : Nat} : n.Open (path ++ [i]) ↔
    n.Open path ∧ ∃ m, n.at? path = some m ∧ m.showsChildren ∧ i < m.children.length := by
  induction path generalizing n with
  | nil =>
    constructor
    · rintro ⟨hs, c, hc, -⟩
      exact ⟨trivial, n, rfl, hs, (List.getElem?_eq_some_iff.1 hc).1⟩
    · rintro ⟨-, m, hm, hs, hi⟩
      obtain rfl := Option.some.inj hm
      exact ⟨hs, _, List.getElem?_eq_getElem hi, trivial⟩
  | cons j path ih =>
    constructor
    · rintro ⟨hs, c, hc, ho⟩
      obtain ⟨ho, m, hm, h⟩ := ih.1 ho
      exact ⟨⟨hs, c, hc, ho⟩, m, by rw [at?_cons, hc]; exact hm, h⟩
    · rintro ⟨⟨hs, c, hc, ho⟩, m, hm, h⟩
      rw [at?_cons, hc] at hm
      exact ⟨hs, c, hc, ih.2 ⟨ho, m, hm, h⟩⟩

/-- In a tree whose depths are counted, the depth of a node is the length of its path. -/
theorem Counted.depth (h : root.Counted) (hm : root.at? path = some m) :
    m.depth = path.length := by
  rw [depth_at?_of_steps h.below hm, h.first, Int.zero_add]

/-- A node shows its children if it is the root or expanded. -/
theorem Counted.showsChildren_iff (h : root.Counted) (hm : root.at? path = some m) :
    m.showsChildren ↔ path = [] ∨ m.expanded := by
  rw [showsChildren, h.depth hm, Bool.or_eq_true, beq_iff_eq, or_comm]
  simp

theorem Counted.open_iff (h : root.Counted) : root.Open path ↔ root.Shown path := by
  constructor
  · induction path using List.reverseRecOn with
    | nil => exact fun _ => .root
    | append_singleton path i ih =>
      intro ho
      obtain ⟨ho, m, hm, hs, hi⟩ := open_concat.1 ho
      exact .child (ih ho) hm ((h.showsChildren_iff hm).1 hs) hi
  · intro hs
    induction hs with
    | root => trivial
    | child _ there opened inside ih =>
      exact open_concat.2 ⟨ih, _, there, (h.showsChildren_iff there).2 opened, inside⟩

/-- What is to be seen is there. -/
theorem Shown.exists_at? (h : root.Shown path) : ∃ n, root.at? path = some n := by
  cases h with
  | root => exact ⟨root, rfl⟩
  | @child path i n above there opened inside =>
    refine ⟨n.children[i], ?_⟩
    rw [at?_append, there, Option.bind_some, at?_cons, List.getElem?_eq_getElem inside]
    rfl

/-! ### The nodes on display -/

/-- A path comes before the paths that lead on from it. -/
theorem lt_append_cons (base : List Nat) (i : Nat) (q : List Nat) : base < base ++ i :: q := by
  have h : List.Lex (· < ·) (base ++ []) (base ++ i :: q) := .append_left _ .nil base
  rwa [List.append_nil] at h

/-- Siblings, and all that is below them, come in their order. -/
theorem append_cons_lt (base : List Nat) {i j : Nat} (h : i < j) (p q : List Nat) :
    base ++ i :: p < base ++ j :: q := List.Lex.append_left _ (.rel h) base

mutual

/-- The paths on display ascend: a node comes before those below it, and siblings in order. -/
theorem ascending_visible (base : List Nat) : (n : Node) →
    ((n.visible base).map Prod.fst).Pairwise (· < ·)
  | ⟨payload, depth, expanded, pending, callRanges, children⟩ => by
    rw [visible, List.map_cons, List.pairwise_cons]
    split
    · refine ⟨fun p hp => ?_, ascending_visibleAll base 0 children⟩
      obtain ⟨⟨p, m⟩, hm, rfl⟩ := List.mem_map.1 hp
      obtain ⟨j, q, c, -, rfl, -⟩ := (mem_visibleAll_iff children).1 hm
      exact lt_append_cons base _ q
    · exact ⟨nofun, .nil⟩

theorem ascending_visibleAll (base : List Nat) (i : Nat) : (nodes : List Node) →
    ((visibleAll base i nodes).map Prod.fst).Pairwise (· < ·)
  | [] => .nil
  | node :: rest => by
    rw [visibleAll, List.map_append, List.pairwise_append]
    refine ⟨ascending_visible _ node, ascending_visibleAll base (i + 1) rest, ?_⟩
    intro p hp p' hp'
    obtain ⟨⟨p, m⟩, hm, rfl⟩ := List.mem_map.1 hp
    obtain ⟨⟨p', m'⟩, hm', rfl⟩ := List.mem_map.1 hp'
    obtain ⟨q, rfl, -⟩ := (mem_visible_iff node).1 hm
    obtain ⟨j, q', c, -, rfl, -⟩ := (mem_visibleAll_iff rest).1 hm'
    rw [List.append_assoc]
    exact append_cons_lt base (by omega) q q'

end

end Node

/-- The URIs of all that is to be seen are well-formed. -/
def Tree.Readable (t : Tree) : Prop := ∀ path n, t.root.Shown path → t.root.at? path = some n →
  ∀ uri ∈ n.uris t.uri, ∃ parts, Uri.ofText uri = .ok parts

namespace View

variable {t : Tree} {style : Style} {view : View}

/-- The view is the tree as it is to be seen. -/
structure Traces (view : View) (t : Tree) (style : Style) : Prop where
  /-- What is to be seen has a row, and nothing else has one. -/
  shown : ∀ path, path ∈ view.map Row.path ↔ t.root.Shown path
  /-- A node comes before those below it, siblings come in their order, and none comes twice. -/
  ascending : (view.map Row.path).Pairwise (· < ·)
  /-- A row is for the node at its path, which is as deep as the path is long. -/
  nodes : ∀ row ∈ view, t.root.at? row.path = some row.node ∧ row.node.depth = row.path.length
  /-- The lines are the texts of the nodes. -/
  lines : view.lines = view.map fun row => row.node.rowText style
  /-- A line begins with the indent of its depth. -/
  indented : ∀ row ∈ view,
    Text.ofChars (style.indent row.node.depth) <+: row.node.rowText style
  /-- The lines are numbered from one, and every number stands for the node on its line. -/
  numbers : (view.lineMap t).map Prod.fst =
    (List.range' 1 view.lines.length).map fun number : Nat => (number : Int)
  places : ∀ i : Nat, (view.lineMap t).get? ((i : Int) + 1) =
    (view[i]?).map fun row => t.place row.path
  found : ∀ row ∈ view, t.node? (t.place row.path) = some row.node
  /-- Just the details that are not empty are annotations, each on the line of its node. -/
  annotated : ∀ number note, (number, note) ∈ view.annotations ↔
    ∃ (i : Nat) (row : Row), view[i]? = some row ∧ number = (i : Int) + 1 ∧
      row.node.rowDetail style.root = .ok note ∧ note ≠ []
  /-- Annotations come in the order of their lines. -/
  ordered : (view.annotations.map Prod.fst).Pairwise (· < ·)

theorem paths_of_ofTree (hv : ofTree t style = .ok view) :
    view.map Row.path = (t.root.visible []).map Prod.fst := by
  have hrows := Except.of_mapM hv
  generalize t.root.visible [] = nodes at hrows
  clear hv
  induction hrows with
  | nil => rfl
  | cons hrow _ ih => rw [List.map_cons, List.map_cons, ih, (text_of_row hrow).1]

theorem detail_of_ofTree (hv : ofTree t style = .ok view) {row : Row} (hr : row ∈ view) :
    row.node.rowDetail style.root = .ok row.detail := by
  obtain ⟨⟨path, n⟩, -, hrow⟩ := Except.mem_of_mapM hv hr
  unfold View.row at hrow
  obtain ⟨detail, hdetail, hrow⟩ := Except.of_bind hrow
  obtain ⟨source, -, hrow⟩ := Except.of_bind hrow
  obtain rfl := Except.ok.inj hrow
  exact hdetail

theorem indent_prefix_rowText (n : Node) (style : Style) :
    Text.ofChars (style.indent n.depth) <+: n.rowText style := by
  refine ⟨Text.ofChars [n.sign style.icons, ' '] ++ n.caption style.icons, ?_⟩
  rw [Node.rowText, Text.ofChars, Text.ofChars, Text.ofChars, List.map_append, List.append_assoc]

theorem numbers_lineMap (view : View) (t : Tree) : (view.lineMap t).map Prod.fst =
    (List.range' 1 view.lines.length).map fun number : Nat => (number : Int) := by
  rw [lines, List.length_map, ← numbers_numbered, lineMap, List.map_map, List.map_map]
  rfl

/-- A tree can be drawn if all that is to be seen of it has well-formed URIs. -/
theorem exists_ofTree_of_readable (style : Style) (hc : t.root.Counted) (hu : t.Readable) :
    ∃ view, ofTree t style = .ok view := by
  cases hv : ofTree t style with
  | ok view => exact ⟨view, rfl⟩
  | error reason =>
    obtain ⟨path, n, uri, hm, huri, hread⟩ := of_ofTree_error hv
    obtain ⟨q, hq, hn, ho⟩ := (Node.mem_visible_iff t.root).1 hm
    obtain ⟨parts, hparts⟩ := hu q n (hc.open_iff.1 ho) hn uri huri
    rw [Uri.filePath?, hparts] at hread
    cases hread

/-- **A view is exactly what there is to see of a tree**, line by line in the order of the tree,
whatever its nodes stand for and however it is drawn. -/
theorem traces_ofTree (t : Tree) (style : Style) (hc : t.root.Counted) (hu : t.Readable) :
    ∃ view, ofTree t style = .ok view ∧ view.Traces t style := by
  obtain ⟨view, hv⟩ := exists_ofTree_of_readable style hc hu
  have hnodes {row : Row} (hr : row ∈ view) := (at?_of_ofTree hv hr).1
  refine ⟨view, hv, ?_, ?_, ?_, ?_, ?_, view.numbers_lineMap t, get?_lineMap view t, ?_, ?_,
    view.ascending_annotations⟩
  · intro path
    rw [paths_of_ofTree hv, ← hc.open_iff, List.mem_map]
    constructor
    · rintro ⟨⟨p, n⟩, hm, rfl⟩
      obtain ⟨q, rfl, -, ho⟩ := (Node.mem_visible_iff t.root).1 hm
      exact ho
    · intro ho
      obtain ⟨n, hn⟩ := (hc.open_iff.1 ho).exists_at?
      exact ⟨(path, n), (Node.mem_visible_iff t.root).2 ⟨path, rfl, hn, ho⟩, rfl⟩
  · rw [paths_of_ofTree hv]
    exact Node.ascending_visible [] t.root
  · exact fun row hr => ⟨hnodes hr, hc.depth (hnodes hr)⟩
  · exact List.map_congr_left fun row hr => (at?_of_ofTree hv hr).2
  · exact fun row _ => indent_prefix_rowText row.node style
  · intro row hr
    rw [Tree.node?_of_isCurrent (Tree.isCurrent_place row.path)]
    exact hnodes hr
  · intro number note
    rw [mem_annotations_iff]
    constructor
    · rintro ⟨i, row, hi, rfl, hne, rfl⟩
      exact ⟨i, row, hi, rfl, detail_of_ofTree hv (List.mem_of_getElem? hi), hne⟩
    · rintro ⟨i, row, hi, rfl, hd, hne⟩
      have he := Except.ok.inj ((detail_of_ofTree hv (List.mem_of_getElem? hi)).symm.trans hd)
      exact ⟨i, row, hi, rfl, he ▸ hne, he⟩

/-- Of the two nodes below the root only the second one is opened. -/
def halfOpened : Tree :=
  let item : CallItem := ⟨"g", none, "file:///w/g", default, default, none, []⟩
  let symbol : DocumentSymbol := ⟨"h", none, default, default, some "int", []⟩
  let hidden := Node.leaf (.call item) 2 []
  let shown := Node.leaf (.document symbol) 2 []
  { Tree.vacant with
    closed := false
    uri := some "file:///w/f"
    root := { Tree.vacant.root with children :=
      [{ Node.leaf (.call item) 1 [] with children := [hidden] },
        { Node.leaf (.document symbol) 1 [] with expanded := true, children := [shown] }] } }

theorem traces_halfOpened : halfOpened.root.Counted ∧ halfOpened.Readable ∧
    ∃ view, ofTree halfOpened ⟨.plain, true, default⟩ = .ok view ∧
      view.Traces halfOpened ⟨.plain, true, default⟩ ∧
      view.map Row.path = [[], [0], [1], [1, 0]] := by
  have hall {Φ : Node → Prop} (a b c d e) (below : List Node) :
      (Node.mk a b c d e below).All Φ ↔ Φ (.mk a b c d e below) ∧ ∀ n ∈ below, n.All Φ :=
    Node.all_iff
  have hc : halfOpened.root.Counted :=
    ⟨rfl, by simp [halfOpened, hall, Node.leaf, Tree.vacant]⟩
  have huris : halfOpened.root.All fun n =>
      ∀ uri ∈ n.uris halfOpened.uri, uri = [] ∨ uri = "file:///w/f" ∨ uri = "file:///w/g" := by
    simp [halfOpened, hall, Node.leaf, Tree.vacant, Node.uris]
    rfl
  have hu : halfOpened.Readable := by
    intro path n _ hn uri hm
    rcases huris path n hn uri hm with rfl | rfl | rfl <;> exact ⟨_, rfl⟩
  obtain ⟨view, hv, ht⟩ := traces_ofTree halfOpened ⟨.plain, true, default⟩ hc hu
  exact ⟨hc, hu, view, hv, ht, paths_of_ofTree hv⟩

end View

end SymbolTrees
