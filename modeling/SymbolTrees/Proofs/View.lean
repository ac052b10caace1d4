import Mathlib.Data.List.Nodup
import SymbolTrees.Buffer
import SymbolTrees.Proofs.Tree.Shape
import SymbolTrees.View.Row

/-!
# What is on display

The rows of a tree name nodes of the tree by their places, and show nothing of what is under way
for a node. So a tree is drawn alike as long as it is the same without that (`Node.idle`).
-/

namespace SymbolTrees

namespace Node

/-- The URIs that are read to draw a node. -/
def uris (n : Node) (document : Option Text) : List Text :=
  match n.payload with
  | .call item => [item.uri]
  | .located symbol _ => [symbol.location.uri]
  | .document _ => document.toList

/-! ### Trees without what is under way -/

mutual

/-- The node and all nodes below it, waiting for nothing. -/
def idle : Node → Node
  | ⟨payload, depth, expanded, _, callRanges, children⟩ =>
    ⟨payload, depth, expanded, none, callRanges, idleAll children⟩

def idleAll : List Node → List Node
  | [] => []
  | node :: rest => idle node :: idleAll rest

end

theorem idleAll_eq_map (nodes : List Node) : idleAll nodes = nodes.map idle := by
  induction nodes with
  | nil => rfl
  | cons node rest ih => rw [idleAll, ih, List.map_cons]

theorem idle_eq (n : Node) :
    n.idle = { n with pending := none, children := n.children.map idle } := by
  cases n
  rw [idle, idleAll_eq_map]

/-- What is under way for a node is not seen. -/
theorem idle_pending (n : Node) (pending : Option Token) :
    ({ n with pending := pending } : Node).idle = n.idle := by
  rw [idle_eq, idle_eq]

/-- A change that is not seen of a node is not seen of its tree. -/
theorem idle_modifyAt {f : Node → Node} {p : List Nat} {n : Node}
    (hf : ∀ m, n.at? p = some m → (f m).idle = m.idle) : (modifyAt f p n).idle = n.idle := by
  induction p generalizing n with
  | nil => exact hf n rfl
  | cons i p ih =>
    have hc : (n.children.modify i (modifyAt f p)).map idle = n.children.map idle := by
      refine List.ext_getElem? fun j => ?_
      rw [List.getElem?_map, List.getElem?_modify, List.getElem?_map]
      split
      · rename_i hj
        subst hj
        cases hi : n.children[i]? with
        | none => rfl
        | some c =>
          refine congrArg some (ih fun m hm => hf m ?_)
          rw [at?_cons, hi]
          exact hm
      · cases n.children[j]? <;> rfl
    rw [idle_eq, idle_eq n]
    simp only [modifyAt, hc]

/-! ### Nodes on display -/

mutual

/-- What is under way makes no difference to which nodes are on display. -/
theorem visible_idle (path : List Nat) :
    (n : Node) → n.idle.visible path = (n.visible path).map (Prod.map id idle)
  | ⟨payload, depth, expanded, pending, callRanges, children⟩ => by
    have hc := visibleAll_idle path 0 children
    rw [idle, visible, visible, List.map_cons, hc]
    split <;> simp [idle]

theorem visibleAll_idle (path : List Nat) (i : Nat) :
    (nodes : List Node) →
      visibleAll path i (idleAll nodes) = (visibleAll path i nodes).map (Prod.map id idle)
  | [] => rfl
  | node :: rest => by
    rw [idleAll, visibleAll, visibleAll, List.map_append, visible_idle, visibleAll_idle]

end

/-- On the way along the path, every node shows its children. -/
def Open : Node → List Nat → Prop
  | _, [] => True
  | n, i :: path => n.showsChildren ∧ ∃ c, n.children[i]? = some c ∧ c.Open path

mutual

/-- The nodes on display are those to which the path is open. -/
theorem mem_visible_iff {base p : List Nat} {m : Node} : (n : Node) →
    ((p, m) ∈ n.visible base ↔ ∃ q, p = base ++ q ∧ n.at? q = some m ∧ n.Open q)
  | ⟨payload, depth, expanded, pending, callRanges, children⟩ => by
    rw [visible, List.mem_cons]
    constructor
    · rintro (he | h)
      · obtain ⟨rfl, rfl⟩ := Prod.mk.inj he
        exact ⟨[], (List.append_nil p).symm, rfl, trivial⟩
      · split at h
        · rename_i hs
          obtain ⟨j, q, c, hj, rfl, hq, ho⟩ := (mem_visibleAll_iff children).1 h
          rw [Nat.zero_add]
          exact ⟨j :: q, rfl, by rw [at?_cons, hj]; exact hq, hs, c, hj, ho⟩
        · cases h
    · rintro ⟨q, rfl, hq, ho⟩
      cases q with
      | nil =>
        obtain rfl := Option.some.inj hq
        exact .inl (by rw [List.append_nil])
      | cons j q =>
        obtain ⟨hs, c, hj, ho⟩ := ho
        rw [at?_cons, hj] at hq
        have hs' : (expanded || depth == 0) = true := hs
        right
        rw [if_pos hs']
        exact (mem_visibleAll_iff children).2 ⟨j, q, c, hj, by rw [Nat.zero_add], hq, ho⟩

theorem mem_visibleAll_iff {base p : List Nat} {i : Nat} {m : Node} : (nodes : List Node) →
    ((p, m) ∈ visibleAll base i nodes ↔
      ∃ j q c, nodes[j]? = some c ∧ p = base ++ (i + j) :: q ∧ c.at? q = some m ∧ c.Open q)
  | [] => by simp [visibleAll]
  | node :: rest => by
    rw [visibleAll, List.mem_append, mem_visible_iff node, mem_visibleAll_iff rest]
    constructor
    · rintro (⟨q, rfl, hq, ho⟩ | ⟨j, q, c, hj, rfl, hq, ho⟩)
      · exact ⟨0, q, node, rfl, by simp, hq, ho⟩
      · exact ⟨j + 1, q, c, hj, by rw [Nat.add_assoc, Nat.add_comm 1 j], hq, ho⟩
    · rintro ⟨j, q, c, hj, rfl, hq, ho⟩
      cases j with
      | zero =>
        obtain rfl := Option.some.inj hj
        exact .inl ⟨q, by simp, hq, ho⟩
      | succ j => exact .inr ⟨j, q, c, hj, by rw [Nat.add_assoc, Nat.add_comm 1 j], hq, ho⟩

end

/-- What is on display below a node stands where its path says. -/
theorem at?_of_mem_visible {path p : List Nat} {m : Node} (n : Node) (h : (p, m) ∈ n.visible path) :
    ∃ q, p = path ++ q ∧ n.at? q = some m := by
  obtain ⟨q, hp, hq, -⟩ := (mem_visible_iff n).1 h
  exact ⟨q, hp, hq⟩

end Node

/-! ### Rows -/

/-- The row of a node that waits for nothing. -/
def Row.idle (row : Row) : Row := { row with node := row.node.idle }

namespace View

variable {t u : Tree} {style : Style} {view : View}

/-- A row shows nothing of what is under way. -/
theorem row_idle (document : Option Text) (path : List Nat) (n : Node) :
    row document style path n.idle = (row document style path n).map Row.idle := by
  have htext : n.idle.rowText style = n.rowText style := by
    rw [Node.idle_eq]
    simp [Node.rowText, Node.sign, Node.caption, Node.isLeaf, Node.name, Node.kind]
  have hdetail : n.idle.rowDetail style.root = n.rowDetail style.root := by
    rw [Node.idle_eq]
    rfl
  have hpayload : n.idle.payload = n.payload := by
    rw [Node.idle_eq]
  unfold row
  rw [htext, hdetail, hpayload]
  cases n.rowDetail style.root with
  | error e => rfl
  | ok detail =>
    dsimp only [bind, Except.bind]
    split <;> rfl

/-- A tree without what is under way is drawn as the tree itself. -/
theorem ofTree_idle (t : Tree) (style : Style) :
    ofTree { t with root := t.root.idle } style = (ofTree t style).map (List.map Row.idle) := by
  have hrows (nodes : List (List Nat × Node)) :
      (nodes.map (Prod.map id Node.idle)).mapM (fun entry => row t.uri style entry.1 entry.2) =
        (nodes.mapM fun entry => row t.uri style entry.1 entry.2).map (List.map Row.idle) := by
    induction nodes with
    | nil => rfl
    | cons entry rest ih =>
      rw [List.map_cons, List.mapM_cons, List.mapM_cons, ih]
      dsimp only [Prod.map, id]
      rw [row_idle]
      cases row t.uri style entry.1 entry.2 with
      | error e => rfl
      | ok first => cases rest.mapM fun entry => row t.uri style entry.1 entry.2 <;> rfl
  unfold ofTree
  dsimp only
  rw [Node.visible_idle]
  exact hrows _

theorem numbered_idle (view : View) :
    numbered (view.map Row.idle) = view.numbered.map (Prod.map id Row.idle) := by
  simp [numbered, List.zipIdx_map, Function.comp_def, Prod.map]

theorem lines_idle (view : View) : lines (view.map Row.idle) = view.lines := by
  simp [lines, Row.idle, Function.comp_def]

theorem annotations_idle (view : View) : annotations (view.map Row.idle) = view.annotations := by
  rw [annotations, numbered_idle, List.filterMap_map]
  rfl

theorem lineMap_idle (view : View) (t : Tree) : lineMap (view.map Row.idle) t = view.lineMap t := by
  rw [lineMap, numbered_idle, List.map_map]
  rfl

theorem sourceMap_idle (view : View) : sourceMap (view.map Row.idle) = view.sourceMap := by
  rw [sourceMap, numbered_idle, List.filterMap_map]
  rfl

/-- What is seen of two views. -/
structure Same (v w : View) : Prop where
  lines : v.lines = w.lines
  annotations : v.annotations = w.annotations
  lineMap : ∀ t u : Tree, t.generation = u.generation → v.lineMap t = w.lineMap u
  sourceMap : v.sourceMap = w.sourceMap

/-- **Trees that differ at most in what is under way are drawn alike.** -/
theorem ofTree_of_idle (hroot : u.root.idle = t.root.idle) (huri : u.uri = t.uri)
    (hv : ofTree t style = .ok view) : ∃ view', ofTree u style = .ok view' ∧ Same view view' := by
  have he : ofTree { t with root := t.root.idle } style =
      ofTree { u with root := u.root.idle } style := by
    unfold ofTree
    rw [hroot, huri]
  rw [ofTree_idle, ofTree_idle, hv] at he
  cases hu : ofTree u style with
  | error e =>
    rw [hu] at he
    cases he
  | ok view' =>
    rw [hu] at he
    have hrows : view.map Row.idle = view'.map Row.idle := Except.ok.inj he
    refine ⟨view', rfl, ?_, ?_, ?_, ?_⟩
    · rw [← lines_idle, hrows, lines_idle]
    · rw [← annotations_idle, hrows, annotations_idle]
    · intro a b hg
      have hplace (v : View) : v.lineMap a = v.lineMap b := by
        simp [lineMap, Tree.place, hg]
      rw [← lineMap_idle, hrows, lineMap_idle, hplace]
    · rw [← sourceMap_idle, hrows, sourceMap_idle]

/-! ### Rows and lines -/

/-- The row of a node has its text. -/
theorem text_of_row {document : Option Text} {path : List Nat} {n : Node} {r : Row}
    (h : row document style path n = .ok r) :
    r.path = path ∧ r.node = n ∧ r.text = n.rowText style := by
  unfold row at h
  obtain ⟨detail, -, h⟩ := Except.of_bind h
  obtain ⟨source, -, h⟩ := Except.of_bind h
  obtain rfl := Except.ok.inj h
  exact ⟨rfl, rfl, rfl⟩

/-- Every row is for the node that stands at its path. -/
theorem at?_of_ofTree (hv : ofTree t style = .ok view) {r : Row} (hr : r ∈ view) :
    t.root.at? r.path = some r.node ∧ r.text = r.node.rowText style := by
  obtain ⟨⟨path, n⟩, hm, hrow⟩ := Except.mem_of_mapM hv hr
  obtain ⟨hpath, hnode, htext⟩ := text_of_row hrow
  obtain ⟨q, hq, hn⟩ := Node.at?_of_mem_visible t.root hm
  obtain rfl : path = q := by simpa using hq
  exact ⟨by rw [hpath, hnode, hn], by rw [htext, hnode]⟩

/-- The place of a document is not known where its URI cannot be read. -/
theorem filePath?_of_ofUri_error {uri : Text} {root : Path} {reason : Malformed}
    (h : Whereabouts.ofUri uri root = .error reason) : Uri.filePath? uri = .error reason := by
  rcases Except.of_bind_error h with h | ⟨path, -, h⟩
  · exact h
  · cases path with
    | none => cases h
    | some path =>
      dsimp only at h
      split at h <;> cases h

/-- The URI of a location is read to draw its node. -/
theorem mem_uris_of_location? {n : Node} {document : Option Text} {whole : Bool}
    {location : Location} (h : n.payload.location? document whole = some location) :
    location.uri ∈ n.uris document := by
  unfold Node.uris
  cases hp : n.payload with
  | call item =>
    rw [hp] at h
    obtain rfl := Option.some.inj h
    exact List.mem_cons_self
  | document symbol =>
    rw [hp] at h
    cases document with
    | none => cases h
    | some uri =>
      simp only [Payload.location?] at h
      split at h
      · cases h
      · obtain rfl := Option.some.inj h
        exact List.mem_cons_self
  | located symbol item =>
    rw [hp] at h
    simp only [Payload.location?] at h
    split at h
    · cases h
    · obtain rfl := Option.some.inj h
      exact List.mem_cons_self

/-- A node whose detail cannot be told has a URI that cannot be read. -/
theorem of_rowDetail_error {n : Node} {root : Path} {reason : Malformed} (document : Option Text)
    (h : n.rowDetail root = .error reason) :
    ∃ uri ∈ n.uris document, Uri.filePath? uri = .error reason := by
  unfold Node.rowDetail at h
  cases hp : n.payload with
  | call item =>
    rw [hp] at h
    rcases Except.of_bind_error h with hplace | ⟨place, -, hnone⟩
    · exact ⟨item.uri, by simp [Node.uris, hp], filePath?_of_ofUri_error hplace⟩
    · cases hnone
  | document symbol =>
    rw [hp] at h
    cases h
  | located symbol item =>
    rw [hp] at h
    rcases Except.of_bind_error h with hplace | ⟨place, -, hnone⟩
    · exact ⟨symbol.location.uri, by simp [Node.uris, hp], filePath?_of_ofUri_error hplace⟩
    · cases hnone

/-- A node that cannot be drawn has a URI that cannot be read. -/
theorem of_row_error {document : Option Text} {path : List Nat} {n : Node} {reason : Malformed}
    (h : row document style path n = .error reason) :
    ∃ uri ∈ n.uris document, Uri.filePath? uri = .error reason := by
  rcases Except.of_bind_error h with hdetail | ⟨detail, -, h⟩
  · exact of_rowDetail_error document hdetail
  · rcases Except.of_bind_error h with hsource | ⟨source, -, hnone⟩
    · cases hl : n.payload.location? document true with
      | none =>
        rw [hl] at hsource
        cases hsource
      | some location =>
        rw [hl] at hsource
        refine ⟨location.uri, mem_uris_of_location? hl, ?_⟩
        cases hread : Uri.filePath? location.uri with
        | error e =>
          simp only [Option.mapM_some, hread] at hsource
          cases hsource
          rfl
        | ok path =>
          simp only [Option.mapM_some, hread] at hsource
          cases hsource
    · cases hnone

/-- A tree that cannot be drawn has a node on display with a URI that cannot be read. -/
theorem of_ofTree_error {reason : Malformed} (hv : ofTree t style = .error reason) :
    ∃ path n uri, (path, n) ∈ t.root.visible [] ∧ uri ∈ Node.uris n t.uri ∧
      Uri.filePath? uri = .error reason := by
  obtain ⟨⟨path, n⟩, hm, hrow⟩ := Except.of_mapM_error hv
  obtain ⟨uri, huri, hread⟩ := of_row_error hrow
  exact ⟨path, n, uri, hm, huri, hread⟩

/-- The lines are numbered from one. -/
theorem get?_lineMap (view : View) (t : Tree) (i : Nat) :
    (view.lineMap t).get? ((i : Int) + 1) = (view[i]?).map fun row => t.place row.path := by
  have hfrom (rows : List Row) (k : Nat) :
      Table.get? ((rows.zipIdx k).map fun entry => (((entry.2 + 1 : Nat) : Int),
        t.place entry.1.path)) (((k + i : Nat) : Int) + 1) =
          (rows[i]?).map fun row => t.place row.path := by
    induction rows generalizing k i with
    | nil => rfl
    | cons first rest ih =>
      rw [List.zipIdx_cons, List.map_cons, Table.get?_cons]
      cases i with
      | zero => simp
      | succ i =>
        have hk : ((k + (i + 1) : Nat) : Int) + 1 = ((k + 1 + i : Nat) : Int) + 1 := by omega
        rw [if_neg (by dsimp only; omega), hk, ih, List.getElem?_cons_succ]
  have h := hfrom view 0
  rw [Nat.zero_add] at h
  simpa [lineMap, numbered, List.map_map, Function.comp_def] using h

/-- The numbers of the rows, in order. -/
theorem numbers_numbered (view : View) :
    view.numbered.map Prod.fst = List.range' 1 view.length := by
  have he : view.numbered.map Prod.fst = (view.zipIdx.map Prod.snd).map (1 + ·) := by
    simp only [numbered, List.map_map, Function.comp_def, Nat.add_comm 1]
  rw [he, List.zipIdx_map_snd, List.map_add_range']

/-- Annotations come in the order of their lines. -/
theorem ascending_annotations (view : View) :
    (view.annotations.map Prod.fst).Pairwise (· < ·) := by
  have hsplit (rows : List (Nat × Row)) :
      (rows.filterMap fun entry =>
        if entry.2.detail = [] then none else some ((entry.1 : Int), entry.2.detail)).map Prod.fst =
      ((rows.filter fun entry => entry.2.detail ≠ []).map Prod.fst).map fun n : Nat => (n : Int) := by
    induction rows with
    | nil => rfl
    | cons entry rest ih => by_cases hd : entry.2.detail = [] <;> simp [hd, ih]
  have hkeys := hsplit view.numbered
  have hnumbers : (view.numbered.map Prod.fst).Pairwise (· < ·) := by
    rw [numbers_numbered]
    exact List.pairwise_lt_range'
  rw [annotations, hkeys]
  exact List.pairwise_map.2
    ((hnumbers.sublist (List.filter_sublist.map _)).imp fun h => Int.ofNat_lt.2 h)

/-- No line has two annotations. -/
theorem nodup_annotations (view : View) : (view.annotations.map Prod.fst).Nodup :=
  view.ascending_annotations.imp fun h => Int.ne_of_lt h

/-- The nodes on display are those with a row. -/
theorem places_lineMap (view : View) (t : Tree) :
    (view.lineMap t).map Prod.snd = view.map fun row => t.place row.path := by
  have hrows : view.numbered.map Prod.snd = view := by
    have hsame : view.numbered.map Prod.snd = view.zipIdx.map Prod.fst := by
      rw [numbered, List.map_map]
      rfl
    rw [hsame, List.zipIdx_map_fst]
  rw [lineMap, List.map_map]
  conv_rhs => rw [← hrows, List.map_map]
  rfl

/-- What is on display has a row. -/
theorem exists_row_of_mem_visible (hv : ofTree t style = .ok view) {path : List Nat} {n : Node}
    (hm : (path, n) ∈ t.root.visible []) : ∃ r ∈ view, r.path = path := by
  obtain ⟨r, hr, hrow⟩ := Except.exists_of_mapM hv hm
  exact ⟨r, hr, (text_of_row hrow).1⟩

/-- The annotations are the details that are not empty, with the numbers of their rows. -/
theorem mem_annotations_iff {number : Int} {note : Text} :
    (number, note) ∈ view.annotations ↔
      ∃ (i : Nat) (row : Row), view[i]? = some row ∧ number = ((i + 1 : Nat) : Int) ∧
        row.detail ≠ [] ∧ row.detail = note := by
  rw [annotations, List.mem_filterMap]
  constructor
  · rintro ⟨⟨_, row⟩, hm, he⟩
    dsimp only at he
    split at he
    · cases he
    · rename_i hsome
      obtain ⟨⟨row', i⟩, hi, heq⟩ := List.mem_map.1 hm
      obtain ⟨rfl, rfl⟩ := Prod.mk.inj heq
      obtain ⟨hnumber, hnote⟩ := Prod.mk.inj (Option.some.inj he)
      exact ⟨i, row', List.mem_zipIdx_iff_getElem?.1 hi, hnumber.symm, hsome, hnote⟩
  · rintro ⟨i, row, hi, rfl, hsome, rfl⟩
    refine ⟨(i + 1, row), List.mem_map.2 ⟨(row, i), List.mem_zipIdx_iff_getElem?.2 hi, rfl⟩, ?_⟩
    exact if_neg hsome

theorem mem_annotations {i : Nat} {note : Text} :
    (((i + 1 : Nat) : Int), note) ∈ view.annotations ↔
      ∃ row, view[i]? = some row ∧ row.detail ≠ [] ∧ row.detail = note := by
  rw [mem_annotations_iff]
  constructor
  · rintro ⟨j, row, hj, he, h⟩
    obtain rfl : i = j := Nat.succ.inj (Int.ofNat.inj he)
    exact ⟨row, hj, h⟩
  · rintro ⟨row, hi, h⟩
    exact ⟨i, row, hi, rfl, h⟩

/-- The annotation of a row is its detail. -/
theorem get?_annotations (view : View) (i : Nat) :
    Table.get? view.annotations ((i + 1 : Nat) : Int) =
      (view[i]?).bind fun row => if row.detail = [] then none else some row.detail := by
  refine Option.ext fun note => ?_
  have hmem : Table.get? view.annotations ((i + 1 : Nat) : Int) = some note ↔
      (((i + 1 : Nat) : Int), note) ∈ view.annotations :=
    ⟨Table.mem_of_get?, Table.get?_of_mem view.nodup_annotations⟩
  rw [hmem, mem_annotations]
  constructor
  · rintro ⟨row, hi, hsome, rfl⟩
    rw [hi]
    exact if_neg hsome
  · intro he
    obtain ⟨row, hi, he⟩ := Option.bind_eq_some_iff.1 he
    split at he
    · cases he
    · rename_i hsome
      exact ⟨row, hi, hsome, Option.some.inj he⟩

end View

/-! ### Rows in print -/

/-- A row as it is printed: its detail follows after two blanks, unless it is empty. -/
def Row.printed (row : Row) : Text :=
  if row.detail = [] then row.text else row.text ++ "  " ++ row.detail

/-- The rows in print, one on each line. -/
def View.printed (view : View) : Text := Text.join (.char '\n') (view.map Row.printed)

/-- A buffer with the rows and their annotations is printed as these. -/
theorem Buffer.text_of_view {buffer : Buffer} {view : View} (hl : buffer.lines = view.lines)
    (ha : buffer.annotations = view.annotations) : buffer.text = view.printed := by
  refine congrArg (Text.join _) (List.ext_getElem? fun i => ?_)
  rw [List.getElem?_map, List.getElem?_map, List.getElem?_zipIdx, hl, View.lines, List.getElem?_map,
    Nat.zero_add]
  cases hi : view[i]? with
  | none => rfl
  | some row =>
    have hnote := view.get?_annotations i
    rw [hi, ← ha] at hnote
    refine congrArg some ?_
    dsimp only
    rw [Buffer.annotated, hnote, Row.printed]
    by_cases hd : row.detail = []
    · simp [hd]
    · simp [hd]

end SymbolTrees
