import Mathlib.Data.List.Forall2
import SymbolTrees.Proofs.Rendering

/-!
# Blocks of rows

The rows of a node and of all that is to be seen below it stand together; they are the *block* of the
node. A change of the node changes its block and no other row: above it at most the children of the
nodes differ, which rows do not show, and beneath it nothing does.
-/

namespace SymbolTrees

namespace Node

variable {n m : Node} {p q : List Nat}

/-- Two nodes at one path that look alike. -/
def Alike (a b : List Nat × Node) : Prop := a.1 = b.1 ∧ a.2.Resembles b.2

theorem Alike.refl (a : List Nat × Node) : Alike a a := ⟨rfl, .refl a.2⟩

theorem visible_eq (base : List Nat) (n : Node) : n.visible base =
    (base, n) :: if n.showsChildren then visibleAll base 0 n.children else [] := by
  cases n
  rfl

/-- A node that does not show its children is a row by itself. -/
theorem visible_of_closed (base : List Nat) (h : n.showsChildren = false) :
    n.visible base = [(base, n)] := by
  rw [visible_eq, h]
  rfl

theorem visibleAll_append (base : List Nat) (i : Nat) (left right : List Node) :
    visibleAll base i (left ++ right) =
      visibleAll base i left ++ visibleAll base (i + left.length) right := by
  induction left generalizing i with
  | nil => simp [visibleAll]
  | cons c left ih =>
    have hi : i + 1 + left.length = i + (c :: left).length := by
      rw [List.length_cons]
      omega
    rw [List.cons_append, visibleAll, visibleAll, ih, hi, List.append_assoc]

/-- A path is open if its beginning is, and its rest from there on. -/
theorem open_append (hm : n.at? p = some m) : n.Open (p ++ q) ↔ n.Open p ∧ m.Open q := by
  induction p generalizing n with
  | nil =>
    obtain rfl := Option.some.inj hm
    exact ⟨fun h => ⟨trivial, h⟩, fun h => h.2⟩
  | cons i p ih =>
    constructor
    · rintro ⟨hs, c, hc, ho⟩
      rw [at?_cons, hc] at hm
      obtain ⟨ho, hq⟩ := (ih hm).1 ho
      exact ⟨⟨hs, c, hc, ho⟩, hq⟩
    · rintro ⟨⟨hs, c, hc, ho⟩, hq⟩
      rw [at?_cons, hc] at hm
      exact ⟨hs, c, hc, (ih hm).2 ⟨ho, hq⟩⟩

/-- **What is on display falls into the block of a node, and what is above and beneath it.** If the
node changes, what is above looks as before, and what is beneath stays. -/
theorem exists_block (hm : n.at? p = some m) (ho : n.Open p) (base : List Nat) :
    ∃ above beneath, n.visible base = above ++ m.visible (base ++ p) ++ beneath ∧
      ∀ f : Node → Node, (f m).mark = m.mark → ∃ above', List.Forall₂ Alike above above' ∧
        (modifyAt f p n).visible base = above' ++ (f m).visible (base ++ p) ++ beneath := by
  induction p generalizing n base with
  | nil =>
    obtain rfl := Option.some.inj hm
    exact ⟨[], [], by simp, fun f _ => ⟨[], .nil, by simp [modifyAt]⟩⟩
  | cons i p ih =>
    obtain ⟨hs, c, hc, ho⟩ := ho
    have hat := hm
    rw [at?_cons, hc] at hm
    obtain ⟨above, beneath, hsplit, hchange⟩ := ih hm ho (base ++ [i])
    obtain ⟨hi, hci⟩ := List.getElem?_eq_some_iff.1 hc
    have hpath : base ++ [i] ++ p = base ++ i :: p := by simp
    -- The children before the one on the path, this one, and those after it.
    have hrows (a : Node) (hs : a.showsChildren) (x : Node)
        (ha : a.children = n.children.take i ++ x :: n.children.drop (i + 1)) :
        a.visible base = (base, a) :: (visibleAll base 0 (n.children.take i) ++
          x.visible (base ++ [i]) ++ visibleAll base (i + 1) (n.children.drop (i + 1))) := by
      have hlength : 0 + (n.children.take i).length = i := by
        rw [List.length_take]
        omega
      rw [visible_eq, if_pos hs, ha, visibleAll_append, hlength, visibleAll, List.append_assoc]
    refine ⟨(base, n) :: (visibleAll base 0 (n.children.take i) ++ above),
      beneath ++ visibleAll base (i + 1) (n.children.drop (i + 1)), ?_, fun f hf => ?_⟩
    · have hchildren : n.children = n.children.take i ++ c :: n.children.drop (i + 1) := by
        rw [← hci, ← List.drop_eq_getElem_cons hi, List.take_append_drop]
      rw [hrows n hs c hchildren, hsplit, hpath]
      simp
    · obtain ⟨above', halike, hsplit'⟩ := hchange f hf
      have hchildren : (modifyAt f (i :: p) n).children =
          n.children.take i ++ modifyAt f p c :: n.children.drop (i + 1) := by
        show n.children.modify i (modifyAt f p) = _
        rw [List.modify_eq_take_cons_drop hi, hci]
      have hresembles : n.Resembles (modifyAt f (i :: p) n) :=
        resembles_modifyAt fun x hx => by rwa [Option.some.inj (hx.symm.trans hat)]
      refine ⟨(base, modifyAt f (i :: p) n) :: (visibleAll base 0 (n.children.take i) ++ above'),
        .cons ⟨rfl, hresembles⟩ (List.rel_append ?_ halike), ?_⟩
      · exact List.forall₂_same.2 fun x _ => Alike.refl x
      · rw [hrows (modifyAt f (i :: p) n) hs _ hchildren, hsplit', hpath]
        simp

/-- Outside the block of a node nothing is below it. -/
theorem not_prefix_of_mem {base : List Nat} {above beneath : List (List Nat × Node)}
    (hm : n.at? p = some m)
    (hsplit : n.visible base = above ++ m.visible (base ++ p) ++ beneath) {e : List Nat × Node}
    (he : e ∈ above ++ beneath) : ¬base ++ p <+: e.1 := by
  rintro ⟨r, hr⟩
  have hall : e ∈ n.visible base := by
    rw [hsplit]
    simp only [List.mem_append] at he ⊢
    exact he.elim (fun h => .inl (.inl h)) .inr
  obtain ⟨q, hq, hat, ho⟩ := (mem_visible_iff n).1 (show (e.1, e.2) ∈ n.visible base from hall)
  obtain rfl : p ++ r = q := List.append_cancel_left (by rw [← hq, ← hr, List.append_assoc])
  rw [at?_append, hm] at hat
  have hblock : e ∈ m.visible (base ++ p) :=
    (mem_visible_iff m).2 ⟨r, hr.symm, hat, ((open_append hm).1 ho).2⟩
  -- Paths ascend, so none comes twice.
  have hpairs := ascending_visible base n
  rw [hsplit, List.map_append, List.map_append, List.pairwise_append, List.pairwise_append] at hpairs
  obtain ⟨⟨-, -, habove⟩, -, hbeneath⟩ := hpairs
  have hpath : e.1 ∈ (m.visible (base ++ p)).map Prod.fst := List.mem_map_of_mem hblock
  rcases List.mem_append.1 he with h | h
  · exact lt_irrefl _ (habove e.1 (List.mem_map_of_mem h) e.1 hpath)
  · exact lt_irrefl _ (hbeneath e.1 (List.mem_append_right _ hpath) e.1 (List.mem_map_of_mem h))

/-- A node that looks like another has the text of its row. -/
theorem Resembles.rowText (h : n.Resembles m) (style : Style) :
    m.rowText style = n.rowText style := by
  have hp : m.payload = n.payload := payload_of_mark h.mark
  have hleaf : m.isLeaf = n.isLeaf := by
    rw [isLeaf, isLeaf, Bool.eq_iff_iff, List.isEmpty_iff, List.isEmpty_iff, h.children_eq_nil]
  have hd : m.depth = n.depth := depth_of_mark h.mark
  simp only [Node.rowText, sign, caption, name, kind, hp, hleaf, hd, h.expanded]

end Node

/-- What is seen of a row, whatever the nodes below its node are. -/
def Row.face (row : Row) : List Nat × Text × Text × Option (Option Path × Location) :=
  (row.path, row.text, row.detail, row.source)

namespace View

variable {t : Tree} {style : Style} {view rows : View} {document : Option Text}
  {path : List Nat} {m n : Node} {r : Row} {i : Nat}

/-! ### Rows of nodes -/

/-- The rows are those of the nodes. -/
def Draws (document : Option Text) (style : Style) (nodes : List (List Nat × Node))
    (rows : View) : Prop :=
  List.Forall₂ (fun entry r => row document style entry.1 entry.2 = .ok r) nodes rows

theorem ofTree_iff : ofTree t style = .ok view ↔ Draws t.uri style (t.root.visible []) view :=
  ⟨Except.of_mapM, Except.mapM_of_forall₂⟩

/-- The row of a node tells of its payload and its text alone. -/
theorem row_of_payload (hp : m.payload = n.payload) (other : List Nat)
    (h : row document style path n = .ok r) :
    row document style other m = .ok ⟨other, m, m.rowText style, r.detail, r.source⟩ := by
  unfold row at h ⊢
  obtain ⟨detail, hdetail, h⟩ := Except.of_bind h
  obtain ⟨source, hsource, h⟩ := Except.of_bind h
  obtain rfl := Except.ok.inj h
  have hd : m.rowDetail style.root = .ok detail := by
    rw [← hdetail, Node.rowDetail, Node.rowDetail, hp]
  rw [hd, hp, hsource]
  rfl

/-- Nodes that look alike have rows that are seen alike. -/
theorem Draws.alike {nodes others : List (List Nat × Node)} (h : Draws document style nodes rows)
    (ha : List.Forall₂ Node.Alike nodes others) :
    ∃ rows', Draws document style others rows' ∧ rows'.map Row.face = rows.map Row.face := by
  induction ha generalizing rows with
  | nil =>
    cases h
    exact ⟨[], .nil, rfl⟩
  | @cons a b nodes others hab _ ih =>
    cases h with
    | @cons _ r _ rows hr h =>
      obtain ⟨rows', hrows, hface⟩ := ih h
      obtain ⟨hpath, hlike⟩ := hab
      have hb := row_of_payload (Node.payload_of_mark hlike.mark) b.1 hr
      refine ⟨_ :: rows', .cons hb hrows, ?_⟩
      obtain ⟨hrpath, -, htext⟩ := text_of_row hr
      rw [List.map_cons, List.map_cons, hface, Row.face, Row.face, hrpath, htext, hpath,
        hlike.rowText]

/-! ### The block of a row -/

/-- The rows strictly below a path. -/
def below (view : View) (path : List Nat) : View :=
  view.filter fun r => path.isPrefixOf r.path && r.path != path

/-- A view falls into the rows above a row, this row with those below it, and those beneath. -/
structure Parted (t : Tree) (style : Style) (view : View) (i : Nat) (r : Row)
    (above beneath : List (List Nat × Node)) : Prop where
  rows : view =
    view.take i ++ r :: (view.below r.path ++ view.drop (i + 1 + (view.below r.path).length))
  nodes : t.root.visible [] = above ++ r.node.visible r.path ++ beneath
  atop : Draws t.uri style above (view.take i)
  block : Draws t.uri style (r.node.visible r.path) (r :: view.below r.path)
  after : Draws t.uri style beneath (view.drop (i + 1 + (view.below r.path).length))
  changed : ∀ f : Node → Node, (f r.node).mark = r.node.mark → ∃ above',
    List.Forall₂ Node.Alike above above' ∧
      (t.root.modifyAt f r.path).visible [] = above' ++ (f r.node).visible r.path ++ beneath

theorem Draws.mem_path {nodes : List (List Nat × Node)} (h : Draws document style nodes rows)
    (hr : r ∈ rows) : ∃ e ∈ nodes, e.1 = r.path := by
  induction h with
  | nil => cases hr
  | @cons e x nodes rows hx _ ih =>
    rcases List.mem_cons.1 hr with rfl | hr
    · exact ⟨e, List.mem_cons_self, (text_of_row hx).1.symm⟩
    · obtain ⟨e, he, hpath⟩ := ih hr
      exact ⟨e, List.mem_cons_of_mem _ he, hpath⟩

theorem Draws.append {first second : List (List Nat × Node)} {left right : View}
    (h : Draws document style first left) (h' : Draws document style second right) :
    Draws document style (first ++ second) (left ++ right) := List.rel_append h h'

theorem Draws.of_append {first second : List (List Nat × Node)}
    (h : Draws document style (first ++ second) rows) : ∃ left right, rows = left ++ right ∧
      Draws document style first left ∧ Draws document style second right := by
  have hleft := List.forall₂_take first.length h
  have hright := List.forall₂_drop first.length h
  rw [List.take_left] at hleft
  rw [List.drop_left] at hright
  exact ⟨_, _, (List.take_append_drop ..).symm, hleft, hright⟩

/-- What is on display of a node is the node and what is strictly below it. -/
theorem isBelow_of_mem_tail {base : List Nat} {e : List Nat × Node}
    (he : e ∈ (n.visible base).tail) : (base.isPrefixOf e.1 && e.1 != base) = true := by
  rw [Node.visible_eq, List.tail_cons] at he
  split at he
  · obtain ⟨j, q, c, -, hpath, -⟩ := (Node.mem_visibleAll_iff _).1
      (show (e.1, e.2) ∈ Node.visibleAll base 0 n.children from he)
    simp [hpath]
  · cases he

/-- The rows below a row are those of its block, where no other row is for a node below it. -/
theorem below_of_draws {above beneath : List (List Nat × Node)} {top tail rest : View} {head : Row}
    (htop : Draws document style above top)
    (htail : Draws document style (head.node.visible head.path).tail tail)
    (hrest : Draws document style beneath rest)
    (hnot : ∀ e ∈ above ++ beneath, ¬head.path <+: e.1) :
    View.below (top ++ head :: tail ++ rest) head.path = tail := by
  have hin (x : Row) (hx : x ∈ tail) :
      (head.path.isPrefixOf x.path && x.path != head.path) = true := by
    obtain ⟨e, he, hpath⟩ := htail.mem_path hx
    rw [← hpath]
    exact isBelow_of_mem_tail he
  have hout {x : Row} {nodes : List (List Nat × Node)} {rows : View}
      (hd : Draws document style nodes rows) (hsub : nodes ⊆ above ++ beneath) (hx : x ∈ rows) :
      ¬(head.path.isPrefixOf x.path && x.path != head.path) = true := by
    obtain ⟨e, he, hpath⟩ := hd.mem_path hx
    rw [Bool.and_eq_true, List.isPrefixOf_iff_prefix, ← hpath]
    exact fun h => hnot e (hsub he) h.1
  have hnone := List.filter_eq_nil_iff.2 fun x hx =>
    hout htop (List.subset_append_left above beneath) hx
  have hnone' := List.filter_eq_nil_iff.2 fun x hx =>
    hout hrest (List.subset_append_right above beneath) hx
  rw [below, List.filter_append, List.filter_append, hnone, hnone', List.nil_append,
    List.append_nil, List.filter_cons, if_neg (by simp), List.filter_eq_self.2 hin]

/-- All nodes above one that is on display are opened. -/
theorem open_of_mem (hv : ofTree t style = .ok view) (hr : r ∈ view) : t.root.Open r.path := by
  have hmem : r.path ∈ (t.root.visible []).map Prod.fst := by
    rw [← paths_of_ofTree hv]
    exact List.mem_map_of_mem hr
  obtain ⟨⟨p, n⟩, hm, hp⟩ := List.mem_map.1 hmem
  obtain ⟨q, rfl, -, ho⟩ := (Node.mem_visible_iff t.root).1 hm
  exact hp ▸ ho

/-- Every path is on one row alone, so that it tells the number of its row. -/
theorem length_eq_of_path {top rest : View} {head : Row}
    (hv : ofTree t style = .ok (top ++ head :: rest)) (hi : (top ++ head :: rest)[i]? = some r)
    (hpath : head.path = r.path) : top.length = i := by
  have hnodup : ((top ++ head :: rest).map Row.path).Nodup := by
    rw [paths_of_ofTree hv]
    exact (Node.ascending_visible [] t.root).imp ne_of_lt
  have hfound : ((top ++ head :: rest).map Row.path)[top.length]? = some r.path := by
    simp [hpath]
  refine (List.getElem?_inj (by simp) hnodup).1 (hfound.trans ?_)
  rw [List.getElem?_map, hi, Option.map_some]

/-- **Every row parts a view.** -/
theorem exists_parted (hv : ofTree t style = .ok view) (hi : view[i]? = some r) :
    ∃ above beneath, Parted t style view i r above beneath := by
  obtain ⟨hat, -⟩ := at?_of_ofTree hv (List.mem_of_getElem? hi)
  have hopen := open_of_mem hv (List.mem_of_getElem? hi)
  obtain ⟨above, beneath, hnodes, hchanged⟩ := Node.exists_block hat hopen []
  have hnot {e : List Nat × Node} (he : e ∈ above ++ beneath) : ¬r.path <+: e.1 :=
    Node.not_prefix_of_mem hat hnodes he
  rw [List.nil_append] at hnodes
  have hdraws := ofTree_iff.1 hv
  rw [hnodes] at hdraws
  obtain ⟨front, rest, rfl, hfront, hrest⟩ := hdraws.of_append
  obtain ⟨top, body, rfl, htop, hbody⟩ := hfront.of_append
  rw [Node.visible_eq] at hbody
  obtain ⟨head, tail, hhead, hinner, rfl⟩ := List.forall₂_cons_left_iff.1 hbody
  have hlength : top.length = i := by
    rw [List.append_assoc] at hv hi
    exact length_eq_of_path hv hi (text_of_row hhead).1
  subst hlength
  obtain rfl : head = r := by simpa using hi
  have htail : Draws t.uri style (head.node.visible head.path).tail tail := by
    rw [Node.visible_eq]
    exact hinner
  have hbelow : View.below (top ++ head :: tail ++ rest) head.path = tail :=
    below_of_draws htop htail hrest fun _ => hnot
  have hdrop : (top ++ head :: tail ++ rest).drop (top.length + 1 + tail.length) = rest := by
    refine List.drop_left' ?_
    simp
    omega
  refine ⟨above, beneath, ?_, hnodes, ?_, ?_, ?_, hchanged⟩
  · rw [hbelow, hdrop]
    simp
  · simpa using htop
  · rw [hbelow, Node.visible_eq]
    exact .cons hhead hinner
  · rwa [hbelow, hdrop]

/-- The block of a row begins with the row. -/
theorem drop_of_getElem? (hv : ofTree t style = .ok view) (hi : view[i]? = some r) :
    view.drop i =
      r :: (view.below r.path ++ view.drop (i + 1 + (view.below r.path).length)) := by
  obtain ⟨above, beneath, hparted⟩ := exists_parted hv hi
  have hlength : (view.take i).length = i := by
    have hlt := (List.getElem?_eq_some_iff.1 hi).1
    rw [List.length_take]
    omega
  conv_lhs => rw [hparted.rows]
  exact List.drop_left' hlength

end View

end SymbolTrees
