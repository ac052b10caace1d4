import Mathlib.Algebra.GroupWithZero.Nat
import SymbolTrees.Proofs.Reading
import SymbolTrees.Proofs.Session.Play

/-!
# The text of a buffer, line by line

The editor shows the rows of a tree as one text. A row is one line of it unless the name or the
detail of its node holds line feeds; then it is as many lines more, and all rows below it stand
further down than the numbers by which the tree knows them.
-/

namespace SymbolTrees

/-! ### Line feeds in a row -/

def lineFeed : Glyph := .char '\n'

namespace IconSet

/-- None of the signs and icons is a line feed. -/
def IsPlain (icons : IconSet) : Prop := icons.expanded ≠ '\n' ∧ icons.collapsed ≠ '\n' ∧
  ∀ entry ∈ icons.kinds, entry.2 ≠ '\n'

theorem isPlain_ofName (name : Option Text) : (ofName name).IsPlain := by
  have hall : ∀ icons ∈ all, icons.IsPlain := by
    unfold IsPlain
    decide
  exact hall _ (ofName_mem_all name)

end IconSet

variable {style : Style} {t : Tree} {view : View} {row : Row}

theorem SymbolKind.lineFeed_notMem_label (kind : Option SymbolKind) :
    lineFeed ∉ Text.ofString (labelOf kind) := by
  intro h
  obtain ⟨c, hc, he⟩ := letter_of_mem_label h
  cases he
  cases hc

namespace Node

theorem sign_ne_lineFeed (n : Node) {icons : IconSet} (h : icons.IsPlain) :
    Glyph.char (n.sign icons) ≠ lineFeed := by
  unfold sign
  dsimp only
  split
  · decide
  · split
    · exact fun he => h.1 (Glyph.char.inj he)
    · exact fun he => h.2.1 (Glyph.char.inj he)

theorem lineFeed_notMem_icon {icons : IconSet} (h : icons.IsPlain) (label : String) :
    lineFeed ∉ Text.ofString (icons.iconFor label) := by
  unfold IconSet.iconFor
  cases hicon : icons.kinds.get? label with
  | none => decide
  | some c =>
    have hc := h.2.2 _ (Table.mem_of_get? hicon)
    simp [Text.ofString, Text.ofChars, lineFeed, Ne.symm hc]

/-- A row has the line feeds of the name. -/
theorem count_rowText (n : Node) (h : style.icons.IsPlain) :
    (n.rowText style).count lineFeed = n.name.count lineFeed := by
  have hindent : lineFeed ∉ Text.ofChars (style.indent n.depth) := by
    intro hm
    cases Legend.isIndent_of_mem_indent hm
  have hlead : lineFeed ∉ Text.ofChars (style.indent n.depth ++ [n.sign style.icons, ' ']) := by
    rw [Text.ofChars, List.map_append, List.mem_append, not_or]
    refine ⟨hindent, ?_⟩
    rw [List.map_cons, List.mem_cons, not_or]
    exact ⟨(n.sign_ne_lineFeed h).symm, by decide⟩
  have hcaption : (n.caption style.icons).count lineFeed = n.name.count lineFeed := by
    have hlabel := List.count_eq_zero.2 (SymbolKind.lineFeed_notMem_label n.kind)
    have hicon := List.count_eq_zero.2 (lineFeed_notMem_icon h (SymbolKind.labelOf n.kind))
    have hopening : List.count lineFeed (Text.ofString " [") = 0 := by decide
    have hclosing : List.count lineFeed (Text.ofString "] • ") = 0 := by decide
    have hblanks : List.count lineFeed (Text.ofString "  ") = 0 := by decide
    unfold caption
    dsimp only
    split
    · rw [List.count_append, List.count_append, List.count_append, hopening, hlabel, hclosing]
      omega
    · rw [List.count_append, List.count_append, hicon, hblanks]
      omega
  rw [rowText, List.count_append, List.count_eq_zero.2 hlead, hcaption, Nat.zero_add]

end Node

/-- The line feeds that a row brings with it. -/
def Row.breaks (row : Row) : Nat := row.node.name.count lineFeed + row.detail.count lineFeed

/-- A row as it is printed is one line and one more for each of its line feeds. -/
theorem Row.count_printed (h : style.icons.IsPlain) (htext : row.text = row.node.rowText style) :
    row.printed.count lineFeed = row.breaks := by
  have hblanks : List.count lineFeed (Text.ofString "  ") = 0 := by decide
  unfold printed breaks
  split
  · rename_i hdetail
    rw [htext, Node.count_rowText _ h, hdetail, List.count_nil, Nat.add_zero]
  · rw [List.count_append, List.count_append, htext, Node.count_rowText _ h, hblanks, Nat.add_zero]

theorem Row.breaks_eq_zero_iff :
    row.breaks = 0 ↔ lineFeed ∉ row.node.name ∧ lineFeed ∉ row.detail := by
  rw [breaks, Nat.add_eq_zero_iff, List.count_eq_zero, List.count_eq_zero]

namespace View

/-- The root is always on display. -/
theorem ne_nil_of_ofTree (hv : ofTree t style = .ok view) : view ≠ [] := by
  rintro rfl
  have hpaths := paths_of_ofTree hv
  rw [Node.visible_eq] at hpaths
  cases hpaths

theorem length_lineMap (view : View) (t : Tree) : (view.lineMap t).length = view.length := by
  simp [lineMap, numbered]

/-- The lines of a view in print are those of its rows. -/
theorem pieces_printed (hv : ofTree t style = .ok view) :
    Text.pieces lineFeed view.printed =
      view.flatMap fun row => Text.pieces lineFeed row.printed := by
  have hne : view.map Row.printed ≠ [] := mt List.map_eq_nil_iff.1 (ne_nil_of_ofTree hv)
  rw [printed, ← lineFeed, Text.pieces_join hne, List.flatMap_map]

/-- A view in print is as many lines as it has rows and line feeds. -/
theorem length_pieces_printed (h : style.icons.IsPlain) (hv : ofTree t style = .ok view) :
    (Text.pieces lineFeed view.printed).length = view.length + (view.map Row.breaks).sum := by
  rw [pieces_printed hv]
  have hrows : ∀ row ∈ view, (Text.pieces lineFeed row.printed).length = row.breaks + 1 :=
    fun row hr => by
      rw [Text.length_pieces, Row.count_printed h (at?_of_ofTree hv hr).2]
  clear hv
  induction view with
  | nil => rfl
  | cons row rest ih =>
    rw [List.forall_mem_cons] at hrows
    rw [List.flatMap_cons, List.length_append, hrows.1, ih hrows.2, List.map_cons, List.sum_cons,
      List.length_cons]
    omega

/-- Without line feeds a view in print is one line for every row. -/
theorem pieces_printed_of_breaks (h : style.icons.IsPlain) (hv : ofTree t style = .ok view)
    (hn : ∀ row ∈ view, row.breaks = 0) :
    Text.pieces lineFeed view.printed = view.map Row.printed := by
  have hrows : ∀ row ∈ view, Text.pieces lineFeed row.printed = [row.printed] := fun row hr => by
    refine Text.pieces_of_notMem (List.count_eq_zero.1 ?_)
    rw [Row.count_printed h (at?_of_ofTree hv hr).2, hn row hr]
  rw [pieces_printed hv, List.flatMap_congr hrows, List.map_eq_flatMap]

end View

namespace Session

variable {s : Session} {id : TreeId} {buffer : Buffer}

/-- How the text of a buffer goes with the lines that its tree knows. -/
structure Printout (s : Session) (id : TreeId) (buffer : Buffer) (view : View) : Prop where
  shows : s.Shows id buffer view
  entries : (s.tree id).lineMap.length = view.length
  /-- Every row is that of the node on its line, with two blanks and the detail of the node behind
  it just if the detail is not empty. -/
  printed : ∀ (i : Nat) (row : Row), view[i]? = some row →
    ∃ ref, s.nodeAt? id ((i : Int) + 1) = some ref ∧ s.node ref = row.node ∧
      (s.node ref).rowDetail s.style.root = .ok row.detail ∧
        row.printed = (s.node ref).rowText s.style ++
          if row.detail = [] then [] else ("  " : Text) ++ row.detail
  /-- Split at line feeds, the text is its rows one after the other, each of them split. -/
  pieces : Text.pieces lineFeed buffer.text =
    view.flatMap fun row => Text.pieces lineFeed row.printed
  /-- The line feeds of names and details come on top of the lines that the tree knows. -/
  count : (Text.pieces lineFeed buffer.text).length =
    (s.tree id).lineMap.length + (view.map Row.breaks).sum
  /-- The text has as many lines as the tree knows just if no name and no detail on display holds a
  line feed. -/
  exactly : (Text.pieces lineFeed buffer.text).length = (s.tree id).lineMap.length ↔
    ∀ row ∈ view, lineFeed ∉ row.node.name ∧ lineFeed ∉ row.detail
  /-- And then every line is a row. -/
  rows : (∀ row ∈ view, lineFeed ∉ row.node.name ∧ lineFeed ∉ row.detail) →
    Text.pieces lineFeed buffer.text = view.map Row.printed

theorem Shows.printout (h : s.Shows id buffer view) (hstyle : s.style.icons.IsPlain) :
    s.Printout id buffer view := by
  have hdrawn := h.depicts.drawn
  have htext : buffer.text = view.printed :=
    Buffer.text_of_view h.depicts.lines h.depicts.annotations
  have hentries : (s.tree id).lineMap.length = view.length := by
    rw [h.depicts.lineMap, View.length_lineMap]
  have hcount : (Text.pieces lineFeed buffer.text).length =
      (s.tree id).lineMap.length + (view.map Row.breaks).sum := by
    rw [htext, hentries, View.length_pieces_printed hstyle hdrawn]
  refine ⟨h, hentries, ?_, ?_, hcount, ?_, ?_⟩
  · intro i row hi
    obtain ⟨ref, hat, -, hnode, -⟩ := h.rows i row hi
    have hr := List.mem_of_getElem? hi
    have hrow := (View.at?_of_ofTree hdrawn hr).2
    refine ⟨ref, hat, hnode, hnode ▸ View.detail_of_ofTree hdrawn hr, ?_⟩
    rw [hnode, ← hrow, Row.printed]
    split
    · rw [List.append_nil]
    · rw [List.append_assoc]
  · rw [htext, View.pieces_printed hdrawn]
  · rw [hcount, Nat.add_eq_left, List.sum_eq_zero_iff_forall_eq_nat, List.forall_mem_map]
    exact forall₂_congr fun _ _ => Row.breaks_eq_zero_iff
  · intro hn
    rw [htext, View.pieces_printed_of_breaks hstyle hdrawn fun row hr =>
      Row.breaks_eq_zero_iff.2 (hn row hr)]

/-- **A buffer is in step with its tree line by line, but for line feeds in names and details**, in
every session that events and commands lead to of which none failed for anything but what it was
asked of. -/
theorem printout_play (client : Client) (settings : Settings) (root : Path) (now : Number)
    (turns : List Turn) (proper : (start client settings root now).isProperPlay turns)
    (id : TreeId) (isOpen : ((start client settings root now).play turns).isOpen id) :
    ∃ buffer view, ((start client settings root now).play turns).Printout id buffer view := by
  have hstart : (start client settings root now).Poised client :=
    ⟨.of_start .., drawn_start .., rfl⟩
  obtain ⟨buffer, view, hshows⟩ := (hstart.play proper).drawn.shows isOpen (Set.notMem_empty id)
  refine ⟨buffer, view, hshows.printout ?_⟩
  rw [style_play (sound_start ..)]
  exact IconSet.isPlain_ofName _

/-- A function is shown whose name holds a line feed. -/
def brokenPlay : List Turn :=
  [.event (.openCalls ⟨Text.ofString "a\nb", none, "", default, default, none, []⟩
    (.calls .incoming))]

theorem printout_brokenPlay : freshSession.isProperPlay brokenPlay ∧
    (freshSession.play brokenPlay).isOpen 0 ∧
    ∃ buffer view, (freshSession.play brokenPlay).Printout 0 buffer view := by
  have hp : freshSession.isProperPlay brokenPlay := by decide +kernel
  have ho : (freshSession.play brokenPlay).isOpen 0 := by decide +kernel
  exact ⟨hp, ho, printout_play .server _ _ _ brokenPlay hp 0 ho⟩

/-- Its tree knows one line, but its buffer shows two, and the second is no row. -/
theorem broken_brokenPlay : freshSession.isProperPlay brokenPlay ∧
    (freshSession.play brokenPlay).isOpen 0 ∧
    ((freshSession.play brokenPlay).tree 0).lineMap.length = 1 ∧
    ((freshSession.play brokenPlay).buffers.get? 1).map
      (fun buffer => Text.pieces lineFeed buffer.text) =
        some [Text.ofString "▶  [Unknown] • a", Text.ofString "b"] := by
  decide +kernel

end Session

end SymbolTrees
