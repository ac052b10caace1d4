import SymbolTrees.Proofs.Blocks
import SymbolTrees.Proofs.Session.Display

/-!
# Folding

When a node is folded, the rows below it go, its own row gets the sign of a closed node, and nothing
else happens: no other row changes, and no other node. Unfolding it again asks nobody and brings
back what was there, row by row.
-/

namespace SymbolTrees

namespace Node

variable {n : Node} {p : List Nat} {f g : Node → Node}

/-- The node as it is when it is folded. -/
def folded (n : Node) : Node := { n with expanded := false }

/-- The node as it is when it is unfolded. -/
def opened (n : Node) : Node := { n with expanded := true }

/-- The row of a node with a sign. -/
def signedText (n : Node) (style : Style) (sign : Char) : Text :=
  Text.ofChars (style.indent n.depth ++ [sign, ' ']) ++ n.caption style.icons

/-- What has something below it bears the sign of an opened or of a closed node. -/
theorem rowText_of_children (hc : n.children ≠ []) (style : Style) : n.rowText style =
    n.signedText style (if n.expanded then style.icons.expanded else style.icons.collapsed) := by
  have hleaf : n.isLeaf = false := by simpa [isLeaf] using hc
  rw [rowText, signedText, sign, hleaf]
  rfl

theorem modifyAt_modifyAt : (n.modifyAt f p).modifyAt g p = n.modifyAt (fun m => g (f m)) p := by
  induction p generalizing n with
  | nil => rfl
  | cons i p ih =>
    have hboth : (modifyAt g p ∘ modifyAt f p) = modifyAt (fun m => g (f m)) p := by
      funext m
      exact ih
    simp only [modifyAt, List.modify_modify_eq, hboth]

/-- A change that changes nothing. -/
theorem modifyAt_eq_self (h : ∀ m, n.at? p = some m → f m = m) : n.modifyAt f p = n := by
  induction p generalizing n with
  | nil => exact h n rfl
  | cons i p ih =>
    have hc : n.children.modify i (modifyAt f p) = n.children := by
      refine List.ext_getElem? fun j => ?_
      rw [List.getElem?_modify]
      split
      · rename_i hj
        subst hj
        cases hi : n.children[i]? with
        | none => rfl
        | some c =>
          refine congrArg some (ih fun m hm => h m ?_)
          rw [at?_cons, hi]
          exact hm
      · simp
    rw [modifyAt, hc]
    cases n
    rfl

/-- A node that is folded and unfolded is as it was. -/
theorem modifyAt_opened_folded {m : Node} (hm : n.at? p = some m) (he : m.expanded) :
    modifyAt opened p (modifyAt folded p n) = n := by
  rw [modifyAt_modifyAt]
  refine modifyAt_eq_self fun x hx => ?_
  obtain rfl : m = x := Option.some.inj (hm.symm.trans hx)
  cases m
  exact congrArg (Node.mk _ _ · _ _ _) he.symm

end Node

theorem Tree.Grown.counted {t : Tree} (h : t.Grown) : t.root.Counted :=
  ⟨h.depth, h.fits.mono fun _ => Node.Fits.depths⟩

/-- A node that is folded and unfolded, in a tree that is drawn each time, leaves the tree as it
was. -/
theorem Tree.show_modify_show_modify {t : Tree} {p : Place} {m : Node} {view other : View}
    (hp : t.IsCurrent p) (hm : t.root.at? p.path = some m) (he : m.expanded)
    (hl : t.lineMap = view.lineMap t) (hs : t.sourceMap = view.sourceMap) :
    (((t.modify p Node.folded).show other).modify p Node.opened).show view = t := by
  have hp' : (Tree.show { t with root := t.root.modifyAt Node.folded p.path } other).IsCurrent p :=
    hp
  rw [modify_of_isCurrent hp, modify_of_isCurrent hp']
  show ({ t with
    root := Node.modifyAt Node.opened p.path (t.root.modifyAt Node.folded p.path)
    lineMap := view.lineMap t
    sourceMap := view.sourceMap } : Tree) = t
  rw [Node.modifyAt_opened_folded hm he, ← hl, ← hs]

/-- What is written twice to a buffer, the second time what stood there before. -/
theorem Buffers.replace_replace {buffers : Buffers} {handle : Int} {buffer : Buffer}
    (hb : buffers.get? handle = some buffer) {lines : List Text} {annotations : List (Int × Text)}
    (hl : buffer.lines = lines) (ha : buffer.annotations = Table.ofList annotations)
    (otherLines : List Text) (otherNotes : List (Int × Text)) :
    (buffers.replace handle otherLines otherNotes).replace handle lines annotations =
      buffers.put handle { buffer with writes := buffer.writes + 2 } := by
  have hbuffer : (buffers.replace handle otherLines otherNotes).buffer handle =
      ⟨otherLines, .ofList otherNotes, buffer.visible, buffer.writes + 1⟩ := by
    refine buffer_of_get? ((get?_replace ..).trans ?_)
    rw [if_pos rfl, buffer_of_get? hb]
  rw [replace, hbuffer, replace, Table.put_put, ← hl, ← ha]

/-- The line on which a row stood before `gone` rows after row `i` went. -/
def lineBefore (i gone : Nat) (line : Int) : Int := if line ≤ i + 1 then line else line + gone

namespace View

variable {t : Tree} {style : Style} {v w view : View} {i : Nat} {r : Row}

/-! ### What is seen of a view -/

theorem lines_eq_faces (view : View) : view.lines = (view.map Row.face).map (·.2.1) := by
  simp [lines, Row.face]

theorem numbered_eq_faces (view : View) : view.numbered.map (Prod.map id Row.face) =
    (view.map Row.face).zipIdx.map fun (face, i) => (i + 1, face) := by
  simp [numbered, List.zipIdx_map, Function.comp_def]

/-- Views of which the same is seen row by row are the same to see. -/
theorem same_of_faces (h : v.map Row.face = w.map Row.face) : Same v w := by
  have hn : v.numbered.map (Prod.map id Row.face) = w.numbered.map (Prod.map id Row.face) := by
    rw [numbered_eq_faces, numbered_eq_faces, h]
  refine ⟨by rw [lines_eq_faces, h, ← lines_eq_faces], ?_, fun a b hg => ?_, ?_⟩
  · have he (x : View) : x.annotations = (x.numbered.map (Prod.map id Row.face)).filterMap
        fun e => if e.2.2.2.1 = [] then none else some ((e.1 : Int), e.2.2.2.1) := by
      rw [List.filterMap_map]
      rfl
    rw [he, hn, ← he]
  · have he (x : View) (t : Tree) : x.lineMap t = (x.numbered.map (Prod.map id Row.face)).map
        fun e => ((e.1 : Int), t.place e.2.1) := by
      simp [lineMap, Function.comp_def, Row.face]
    rw [he, hn, ← he, lineMap, lineMap]
    simp [Tree.place, hg]
  · have he (x : View) : x.sourceMap =
        Table.ofList ((x.numbered.map (Prod.map id Row.face)).filterMap fun e =>
          e.2.2.2.2.map fun source =>
            (source.2.range.start.line + 1, ⟨source.1, source.2.uri, e.1⟩)) := by
      simp [sourceMap, List.filterMap_map, Function.comp_def, Row.face]
    rw [he, hn, ← he]

/-- What a view has on a line that is no number of a row. -/
theorem get?_lineMap_of_not_pos (view : View) (t : Tree) {line : Int} (h : ¬0 < line) :
    (view.lineMap t).get? line = none := by
  by_contra hn
  obtain ⟨place, hp⟩ := Option.ne_none_iff_exists'.1 hn
  have hm : line ∈ (view.lineMap t).map Prod.fst := List.mem_map_of_mem (Table.mem_of_get? hp)
  rw [numbers_lineMap] at hm
  obtain ⟨number, hnumber, rfl⟩ := List.mem_map.1 hm
  rw [List.mem_range'_1] at hnumber
  omega

theorem get?_annotations_of_not_pos (view : View) {line : Int} (h : ¬0 < line) :
    Table.get? view.annotations line = none := by
  by_contra hn
  obtain ⟨note, hp⟩ := Option.ne_none_iff_exists'.1 hn
  obtain ⟨j, row, -, rfl, -⟩ := mem_annotations_iff.1 (Table.mem_of_get? hp)
  omega

/-! ### A folded row -/

/-- The view with the node on row `i` folded: the rows below it are gone. -/
def folded (view : View) (i : Nat) (r : Row) (style : Style) : View :=
  view.take i ++ { r with node := r.node.folded, text := r.node.folded.rowText style } ::
    view.drop (i + 1 + (view.below r.path).length)

/-- **A tree with a folded node is drawn without the rows below it.** -/
theorem ofTree_folded (hv : ofTree t style = .ok view) (hi : view[i]? = some r)
    (hc : t.root.Counted) (hp : r.path ≠ []) : ∃ view',
      ofTree { t with root := t.root.modifyAt Node.folded r.path } style = .ok view' ∧
        view'.map Row.face = (view.folded i r style).map Row.face := by
  obtain ⟨above, beneath, hparted⟩ := exists_parted hv hi
  obtain ⟨hat, -⟩ := at?_of_ofTree hv (List.mem_of_getElem? hi)
  obtain ⟨above', halike, hvisible⟩ := hparted.changed Node.folded rfl
  obtain ⟨rows, hrows, hfaces⟩ := hparted.atop.alike halike
  have hrow : row t.uri style r.path r.node = .ok r := by
    have hblock := hparted.block
    rw [Node.visible_eq] at hblock
    exact (List.forall₂_cons.1 hblock).1
  have hclosed : r.node.folded.showsChildren = false := by
    have hdepth : r.node.depth ≠ 0 := by
      rw [hc.depth hat, Ne, Int.natCast_eq_zero, List.length_eq_zero_iff]
      exact hp
    simpa [Node.showsChildren, Node.folded] using hdepth
  rw [Node.visible_of_closed _ hclosed] at hvisible
  have hfolded := row_of_payload (m := r.node.folded) (n := r.node) rfl r.path hrow
  have hone : Draws t.uri style [(r.path, r.node.folded)] [_] := .cons hfolded .nil
  have hdraws := (hrows.append hone).append hparted.after
  rw [← hvisible] at hdraws
  refine ⟨_, ofTree_iff.2 hdraws, ?_⟩
  rw [folded, List.map_append, List.map_append, hfaces]
  simp [Row.face]

theorem lines_folded (view : View) (i : Nat) (r : Row) (style : Style) :
    (view.folded i r style).lines = view.lines.take i ++ r.node.folded.rowText style ::
      view.lines.drop (i + 1 + (view.below r.path).length) := by
  simp [lines, folded, List.map_take, List.map_drop]

/-- The rows above stay where they are, and those beneath move up. -/
theorem getElem?_folded (hi : view[i]? = some r) (j : Nat) :
    ((view.folded i r style)[j]?).map (fun x => (x.path, x.detail)) =
      (view[if j ≤ i then j else j + (view.below r.path).length]?).map
        fun x => (x.path, x.detail) := by
  have hlt := (List.getElem?_eq_some_iff.1 hi).1
  have hlength : (view.take i).length = i := by
    rw [List.length_take]
    omega
  rcases Nat.lt_trichotomy j i with hj | rfl | hj
  · rw [folded, List.getElem?_append_left (by omega), List.getElem?_take_of_lt hj,
      if_pos (by omega)]
  · rw [folded, List.getElem?_append_right (by omega), hlength, if_pos (by omega), hi]
    simp
  · obtain ⟨d, rfl⟩ := Nat.exists_eq_add_of_lt hj
    have hd : i + d + 1 - i = d + 1 := by omega
    rw [folded, List.getElem?_append_right (by omega), hlength, if_neg (by omega), hd,
      List.getElem?_cons_succ, List.getElem?_drop]
    congr 2
    omega

theorem get?_lineMap_folded (hi : view[i]? = some r) (t : Tree) (line : Int) :
    ((view.folded i r style).lineMap t).get? line =
      (view.lineMap t).get? (lineBefore i (view.below r.path).length line) := by
  unfold lineBefore
  by_cases hpos : 0 < line
  · obtain ⟨j, rfl⟩ : ∃ j : Nat, line = (j : Int) + 1 := ⟨(line - 1).toNat, by omega⟩
    have hplace (row : Option Row) : (row.map fun x => t.place x.path) =
        (row.map fun x => (x.path, x.detail)).map fun x => t.place x.1 := by
      rw [Option.map_map]
      rfl
    rw [get?_lineMap, hplace, getElem?_folded hi, ← hplace, ← get?_lineMap]
    congr 1
    split <;> split <;> omega
  · rw [get?_lineMap_of_not_pos _ _ hpos, if_pos (by omega), get?_lineMap_of_not_pos _ _ hpos]

theorem get?_annotations_folded (hi : view[i]? = some r) (line : Int) :
    Table.get? (view.folded i r style).annotations line =
      Table.get? view.annotations (lineBefore i (view.below r.path).length line) := by
  unfold lineBefore
  by_cases hpos : 0 < line
  · obtain ⟨j, rfl⟩ : ∃ j : Nat, line = ((j + 1 : Nat) : Int) := ⟨(line - 1).toNat, by omega⟩
    have hnote (row : Option Row) :
        (row.bind fun x => if x.detail = [] then none else some x.detail) =
          (row.map fun x => (x.path, x.detail)).bind fun x =>
            if x.2 = [] then none else some x.2 := by
      cases row <;> rfl
    rw [get?_annotations, hnote, getElem?_folded hi, ← hnote, ← get?_annotations]
    congr 1
    split <;> split <;> omega
  · rw [get?_annotations_of_not_pos _ hpos, if_pos (by omega), get?_annotations_of_not_pos _ hpos]

/-- How a tree is drawn depends on its nodes and its document. -/
theorem ofTree_congr {u : Tree} (hroot : u.root = t.root) (huri : u.uri = t.uri) :
    ofTree u style = ofTree t style := by
  rw [ofTree, ofTree, hroot, huri]

end View

namespace Session

variable {s : Session} {id : TreeId} {ref : NodeRef} {buffer : Buffer} {view : View} {i : Nat}
  {r : Row} {path : List Nat} {n : Node}

/-- A request that is not under way cannot be given up. -/
theorem givenUp_of_idle (h : s.Stands ref) (hp : (s.node ref).pending = none) :
    s.givenUp ref = s := by
  have hinquiry : s.inquiryOf ref = none := by
    rw [inquiryOf, hp]
    rfl
  have hregistry : s.registry.updateNode ref (fun node => { node with pending := none }) =
      s.registry := by
    refine Registry.update_eq_self ?_
    have hroot := Node.modifyAt_eq_self (f := fun node => { node with pending := none })
      (n := (s.tree ref.tree).root) (p := ref.place.path) fun m hm => by
        obtain rfl : s.node ref = m := Option.some.inj (h.found.symm.trans hm)
        cases hn : s.node ref
        rw [hn] at hp
        exact congrArg (Node.mk _ _ _ · _ _) hp.symm
    exact (Tree.modify_of_isCurrent h.current).trans (by rw [hroot]; rfl)
  unfold givenUp
  rw [hinquiry]
  show ({ s with registry := _ } : Session) = s
  rw [hregistry]

theorem tree_unfolded (h : s.Stands ref) (expanded : Bool) :
    (s.unfolded ref expanded).tree ref.tree = { s.tree ref.tree with
      root := (s.tree ref.tree).root.modifyAt (fun node => { node with expanded := expanded })
        ref.place.path } :=
  (Registry.tree_updateNode_self h.planted).trans (Tree.modify_of_isCurrent h.current)

/-- A tree that was just drawn is shown as it was drawn. -/
theorem Drawn.shows_shown {stale : Set TreeId} (hd : s.Drawn stale) (ho : s.isOpen id)
    (hv : View.ofTree (s.tree id) s.style = .ok view) :
    ∃ buffer, (s.shown id view).Shows id buffer view := by
  have hopen : (s.shown id view).isOpen id := (isOpen_shown s id view).trans ho
  obtain ⟨buffer, other, hshows⟩ := (hd.shown ho hv).shows hopen fun hm => hm.2 rfl
  have hdrawn := hshows.depicts.drawn
  rw [tree_shown ho hd.sound] at hdrawn
  obtain rfl : view = other :=
    Except.ok.inj (hv.symm.trans ((View.ofTree_congr rfl rfl).symm.trans hdrawn))
  exact ⟨buffer, hshows⟩

theorem handle_unfolded (s : Session) (ref : NodeRef) (expanded : Bool) :
    ((s.unfolded ref expanded).tree id).handle = (s.tree id).handle :=
  Registry.tree_update_of_keeps Tree.handle Tree.handle_modify

/-- A node that is folded and unfolded, with the tree drawn each time, leaves the session as it was,
but its buffer was written twice. -/
theorem shown_unfolded_shown_unfolded (hstands : s.Stands ref) (he : (s.node ref).expanded)
    (hshows : s.Shows ref.tree buffer view) (other : View) :
    (((s.unfolded ref false).shown ref.tree other).unfolded ref true).shown ref.tree view =
      { s with
        buffers := s.buffers.put (s.tree ref.tree).handle
          { buffer with writes := buffer.writes + 2 } } := by
  have hregistry : ((((s.unfolded ref false).shown ref.tree other).unfolded ref true).shown
      ref.tree view).registry = s.registry := by
    show ((((s.registry.update ref.tree _).update ref.tree _).update ref.tree _).update
      ref.tree _) = s.registry
    rw [Registry.update_update, Registry.update_update, Registry.update_update]
    exact Registry.update_eq_self (Tree.show_modify_show_modify hstands.current hstands.found he
      hshows.depicts.lineMap hshows.depicts.sourceMap)
  have hbuffers : ((((s.unfolded ref false).shown ref.tree other).unfolded ref true).shown
      ref.tree view).buffers =
        s.buffers.put (s.tree ref.tree).handle { buffer with writes := buffer.writes + 2 } := by
    show ((s.buffers.replace _ _ _).replace _ _ _) = _
    simp only [handle_unfolded, handle_shown]
    refine Buffers.replace_replace hshows.held hshows.depicts.lines ?_ _ _
    rw [hshows.depicts.annotations, Table.ofList_of_nodup view.nodup_annotations]
  exact congrArg₂ (fun registry buffers => { s with registry := registry, buffers := buffers })
    hregistry hbuffers

/-- Row `i` of a tree that is in step with its buffer is for a node below the root that is opened
and has nodes below it. -/
structure Foldable (s : Session) (id : TreeId) (buffer : Buffer) (view : View) (i : Nat)
    (r : Row) : Prop where
  isOpen : s.isOpen id
  shows : s.Shows id buffer view
  row : view[i]? = some r
  inner : r.path ≠ []
  expanded : r.node.expanded
  known : r.node.children ≠ []

/-- From `s` to `t` the node on row `i` is folded: the `gone` rows after it are gone, with their
nodes and annotations, its own row bears the sign of a closed node, and nothing else changed. -/
structure Folds (s t : Session) (id : TreeId) (before after : Buffer) (i gone : Nat)
    (r : Row) : Prop where
  sign : before.lines[i]? = some (r.node.signedText s.style s.style.icons.expanded)
  lines : after.lines = before.lines.take i ++
    r.node.signedText s.style s.style.icons.collapsed :: before.lines.drop (i + 1 + gone)
  nodes : ∀ line, t.nodeAt? id line = s.nodeAt? id (lineBefore i gone line)
  notes : ∀ line, after.annotations.get? line = before.annotations.get? (lineBefore i gone line)
  node : ∃ lineMap sourceMap, t.tree id = { s.tree id with
    root := (s.tree id).root.modifyAt Node.folded r.path
    lineMap := lineMap
    sourceMap := sourceMap }
  others : ∀ other ≠ id, t.tree other = s.tree other
  rest : t = { s with
    registry := { s.registry with trees := t.registry.trees }
    buffers := s.buffers.put (s.tree id).handle after }

namespace Foldable

variable (hf : s.Foldable id buffer view i r)
include hf

theorem occurs : s.Occurs id r.path r.node :=
  ⟨hf.isOpen, (View.at?_of_ofTree hf.shows.depicts.drawn (List.mem_of_getElem? hf.row)).1⟩

/-- The row of the node bears the sign of an opened one. -/
theorem sign : buffer.lines[i]? = some (r.node.signedText s.style s.style.icons.expanded) := by
  have hsign := Node.rowText_of_children hf.known s.style
  rw [hf.expanded] at hsign
  obtain ⟨_, -, -, hnode, hline⟩ := hf.shows.rows i r hf.row
  rw [hline, hnode, hsign]
  rfl

section Folded

variable {t : Session} {after : Buffer} {view' : View} (hdepicts : t.Depicts id after view')
  (hfaces : view'.map Row.face = (view.folded i r s.style).map Row.face)
include hdepicts hfaces

/-- Once the tree shows the rows of the folded one, those below the node are gone from its text. -/
theorem lines_of_faces : after.lines = buffer.lines.take i ++
    r.node.signedText s.style s.style.icons.collapsed ::
      buffer.lines.drop (i + 1 + (view.below r.path).length) := by
  have hclosed : r.node.folded.rowText s.style =
      r.node.signedText s.style s.style.icons.collapsed :=
    Node.rowText_of_children (n := r.node.folded) hf.known s.style
  rw [hdepicts.lines, (View.same_of_faces hfaces).lines, View.lines_folded, hf.shows.depicts.lines,
    hclosed]

/-- The rows that are left lead to the nodes that they led to. -/
theorem nodeAt?_of_faces (ht : t.isOpen id)
    (hgeneration : (t.tree id).generation = (s.tree id).generation) (line : Int) :
    t.nodeAt? id line = s.nodeAt? id (lineBefore i (view.below r.path).length line) := by
  have hmap (line : Int) : (t.tree id).lineMap.get? line =
      (s.tree id).lineMap.get? (lineBefore i (view.below r.path).length line) := by
    rw [hdepicts.lineMap, (View.same_of_faces hfaces).lineMap _ _ hgeneration,
      View.get?_lineMap_folded hf.row, hf.shows.depicts.lineMap]
  rw [nodeAt?, nodeAt?, if_pos ht, if_pos hf.isOpen, Tree.nodeAt?, Tree.nodeAt?, hmap]

/-- And they bear the annotations that they bore. -/
theorem annotations_of_faces (line : Int) : after.annotations.get? line =
    buffer.annotations.get? (lineBefore i (view.below r.path).length line) := by
  rw [hdepicts.annotations, (View.same_of_faces hfaces).annotations,
    View.get?_annotations_folded hf.row, hf.shows.depicts.annotations]

end Folded

end Foldable

section Fold

variable (hd : s.Drawn Set.univ) (hf : s.Foldable id buffer view i r)
include hd hf

/-- Folding takes what is below the node off the display. -/
theorem collapse_of_foldable : ∃ view',
    View.ofTree ((s.unfolded ⟨id, (s.tree id).place r.path⟩ false).tree id) s.style = .ok view' ∧
      view'.map Row.face = (view.folded i r s.style).map Row.face ∧
      collapse id ⟨id, (s.tree id).place r.path⟩ s =
        .ok () ((s.unfolded ⟨id, (s.tree id).place r.path⟩ false).shown id view') := by
  have hm := hf.occurs.member
  have hnode := hf.occurs.node
  have hstands := hd.sound.stands hm
  generalize hr : (⟨id, (s.tree id).place r.path⟩ : NodeRef) = ref at hm hnode hstands ⊢
  have hpath : ref.place.path = r.path := by rw [← hr]; rfl
  obtain rfl : ref.tree = id := hm.tree
  have hfits := hd.sound.fits hf.occurs
  have hidle : (s.node ref).pending = none := by
    rw [hnode]
    by_contra hp
    exact hf.known (hfits.waiting hp).2.1
  have hdepth : (s.node ref).depth ≠ 0 := by
    rw [hnode, (hd.sound.grown ref.tree).depth_at? hf.occurs.found, Ne, Int.natCast_eq_zero,
      List.length_eq_zero_iff]
    exact hf.inner
  have htree := tree_unfolded hstands false
  obtain ⟨view', hv, hfaces⟩ := View.ofTree_folded hf.shows.depicts.drawn hf.row
    (hd.sound.grown ref.tree).counted hf.inner
  have hv' : View.ofTree ((s.unfolded ref false).tree ref.tree) s.style = .ok view' := by
    rw [htree, hpath]
    exact hv
  refine ⟨view', hv', hfaces, Action.Ends.eq_ok ?_⟩
  refine ends_collapse hd.sound (fun hn => absurd hm hn) (fun _ h0 => absurd h0 hdepth)
    (fun _ hclosed => ?_) fun _ => ?_
  · rw [hnode, hf.expanded] at hclosed
    cases hclosed
  · rw [givenUp_of_idle hstands hidle]
    have ho := (drawn_unfolded hd hm fun he : false = true => by cases he).2
    exact (ends_render_of_ofTree ho hv').mono (fun _ _ ht => ⟨rfl, ht.2⟩) fun _ _ he => he

/-- Unfolding it again brings everything back, and nobody is asked. -/
theorem expand_of_folded {view' : View}
    (hv : View.ofTree ((s.unfolded ⟨id, (s.tree id).place r.path⟩ false).tree id) s.style =
      .ok view') :
    expand id ⟨id, (s.tree id).place r.path⟩
        ((s.unfolded ⟨id, (s.tree id).place r.path⟩ false).shown id view') =
      .ok none { s with
        buffers := s.buffers.put (s.tree id).handle { buffer with writes := buffer.writes + 2 } } := by
  have hm := hf.occurs.member
  have hnode := hf.occurs.node
  have hstands := hd.sound.stands hm
  generalize hr : (⟨id, (s.tree id).place r.path⟩ : NodeRef) = ref at hm hnode hstands hv ⊢
  obtain rfl : ref.tree = id := hm.tree
  obtain ⟨hdu, hou⟩ := drawn_unfolded hd hm fun he : false = true => by cases he
  have htree := tree_unfolded hstands false
  have hdt := hdu.shown hou hv
  have htshown := tree_shown hou hdu.sound view'
  generalize ht : (s.unfolded ref false).shown ref.tree view' = t at hdt htshown
  rw [htree] at htshown
  have hot : t.isOpen ref.tree := by
    rw [← ht, isOpen_shown]
    exact hou
  have hat : (t.tree ref.tree).root.at? ref.place.path = some (s.node ref).folded := by
    rw [htshown]
    exact (Node.at?_modifyAt ..).trans (by rw [hstands.found]; rfl)
  have hct : (t.tree ref.tree).IsCurrent ref.place := by
    rw [htshown]
    exact hstands.current
  have hmt : t.Member ref.tree ref := ⟨hot, rfl, Tree.contains_iff.2 ⟨hct, _, hat⟩⟩
  have hnt : t.node ref = (s.node ref).folded := Tree.node_of_at? hct hat
  have hknown : (t.node ref).children ≠ [] := by
    rw [hnt, hnode]
    exact hf.known
  have hexpanded : (s.node ref).expanded := by
    rw [hnode]
    exact hf.expanded
  have hback : View.ofTree ((t.unfolded ref true).tree ref.tree) t.style = .ok view := by
    have hstyle : t.style = s.style := by rw [← ht]; rfl
    rw [hstyle, tree_unfolded (hdt.sound.stands hmt), htshown, ← hf.shows.depicts.drawn]
    exact View.ofTree_congr (Node.modifyAt_opened_folded hstands.found hexpanded) rfl
  rw [← shown_unfolded_shown_unfolded hstands hexpanded hf.shows view', ht]
  refine Action.Ends.eq_ok (ends_expand hdt.sound (fun hn => absurd hmt hn) (fun _ hopen => ?_)
    (fun _ hk => ?_) fun _ hl => absurd hl hknown)
  · rw [hnt] at hopen
    cases hopen
  · have hopened : (t.unfolded ref true).Drawn _ ∧ (t.unfolded ref true).isOpen ref.tree :=
      drawn_unfolded hdt hmt fun _ => hk
    exact (ends_render_of_ofTree hopened.2 hback).mono (fun _ _ ht => ⟨rfl, ht.2⟩) fun _ _ he => he

/-- A folded node takes what is below it off the display, and brings it back. -/
theorem folds_of_foldable : ∃ t after view',
    collapse id ⟨id, (s.tree id).place r.path⟩ s = .ok () t ∧
      s.Folds t id buffer after i (view.below r.path).length r ∧ t.Shows id after view' ∧
        expand id ⟨id, (s.tree id).place r.path⟩ t = .ok none { s with
          buffers :=
            s.buffers.put (s.tree id).handle { buffer with writes := buffer.writes + 2 } } := by
  obtain ⟨view', hv, hfaces, hcollapse⟩ := collapse_of_foldable hd hf
  have hexpand := expand_of_folded hd hf hv
  have hm := hf.occurs.member
  have hstands := hd.sound.stands hm
  generalize hr : (⟨id, (s.tree id).place r.path⟩ : NodeRef) = ref at *
  have hpath : ref.place.path = r.path := by rw [← hr]; rfl
  obtain rfl : ref.tree = id := hm.tree
  obtain ⟨hdu, hou⟩ := drawn_unfolded hd hm fun he : false = true => by cases he
  obtain ⟨after, hshows⟩ := hdu.shows_shown hou hv
  have htree : ((s.unfolded ref false).shown ref.tree view').tree ref.tree = Tree.show
      { s.tree ref.tree with root := (s.tree ref.tree).root.modifyAt Node.folded r.path } view' := by
    rw [tree_shown hou hdu.sound view', tree_unfolded hstands, hpath]
    rfl
  have hbuffers : ((s.unfolded ref false).shown ref.tree view').buffers =
      s.buffers.replace (s.tree ref.tree).handle view'.lines view'.annotations := by
    show s.buffers.replace ((s.unfolded ref false).tree ref.tree).handle _ _ = _
    rw [handle_unfolded]
  have hothers (other : TreeId) (hne : other ≠ ref.tree) :
      ((s.unfolded ref false).shown ref.tree view').tree other = s.tree other :=
    (Registry.tree_update_of_ne hne).trans (Registry.tree_update_of_ne hne)
  have hrest : (s.unfolded ref false).shown ref.tree view' = { s with
      registry := { s.registry with
        trees := ((s.unfolded ref false).shown ref.tree view').registry.trees }
      buffers := ((s.unfolded ref false).shown ref.tree view').buffers } := rfl
  have hot : ((s.unfolded ref false).shown ref.tree view').isOpen ref.tree :=
    (isOpen_shown _ _ _).trans hou
  generalize (s.unfolded ref false).shown ref.tree view' = t at *
  have hgeneration : (t.tree ref.tree).generation = (s.tree ref.tree).generation := by
    rw [htree]
    rfl
  have hafter : t.buffers = s.buffers.put (s.tree ref.tree).handle after := by
    have hhandle : (t.tree ref.tree).handle = (s.tree ref.tree).handle := by
      rw [htree]
      rfl
    have hheld := hshows.held
    rw [hhandle, hbuffers, Buffers.get?_replace, if_pos rfl] at hheld
    rw [hbuffers, ← Option.some.inj hheld]
    rfl
  rw [hafter] at hrest
  exact ⟨t, after, view', hcollapse, {
    sign := hf.sign
    lines := hf.lines_of_faces hshows.depicts hfaces
    nodes := hf.nodeAt?_of_faces hshows.depicts hfaces hot hgeneration
    notes := hf.annotations_of_faces hshows.depicts hfaces
    node := ⟨_, _, htree⟩
    others := hothers
    rest := hrest }, hshows, hexpand⟩

end Fold

/-- **Folding removes one block of rows, and unfolding restores it**: in every session that a run
leads to, a node below the root that is on display, opened and with nodes below it can be folded.
The rows strictly below it, which stand together right after its own, are gone then, and nothing
else changes but the sign of its row. Unfolded again, everything is as it was, and no request is
sent; only the buffer was written twice. -/
theorem folds_steps (client : Client) (settings : Settings) (root : Path) (now : Number)
    (events : List Event)
    (foldable : ((start client settings root now).steps events).Foldable id buffer view i r) :
    (view.drop (i + 1)).take (view.below r.path).length = view.below r.path ∧
    ∃ t after view',
      collapse id ⟨id, (((start client settings root now).steps events).tree id).place r.path⟩
        ((start client settings root now).steps events) = .ok () t ∧
      ((start client settings root now).steps events).Folds t id buffer after i
        (view.below r.path).length r ∧
      t.Shows id after view' ∧
      expand id ⟨id, (((start client settings root now).steps events).tree id).place r.path⟩ t =
        .ok none { (start client settings root now).steps events with
          buffers := ((start client settings root now).steps events).buffers.put
            (((start client settings root now).steps events).tree id).handle
              { buffer with writes := buffer.writes + 2 } } := by
  refine ⟨?_, folds_of_foldable (drawn_steps ..) foldable⟩
  have hdrop := View.drop_of_getElem? foldable.shows.depicts.drawn foldable.row
  rw [List.drop_add_one_eq_tail_drop, hdrop, List.tail_cons, List.take_left]

/-- The outline of a document with a class, which is opened, and its two methods. -/
def outlinedRun : List Event :=
  let symbol (name : Text) (children : List DocumentSymbol) : DocumentSymbol :=
    ⟨name, none, default, default, none, children⟩
  [.openOutline "file:///w/a" [.nested (symbol "C" [symbol "f" [], symbol "g" []]),
    .nested (symbol "h" [])],
    .expand 0 ⟨0, 0, [0]⟩]

/-- The class is opened, and its methods stand below it. -/
theorem foldable_outlinedRun : ∃ buffer view r,
    (freshSession.steps outlinedRun).Foldable 0 buffer view 1 r ∧ r.path = [0] ∧
      (view.below r.path).length = 2 := by
  have hproper : freshSession.isProperRun outlinedRun := by decide +kernel
  have hdrawn : (freshSession.steps outlinedRun).Drawn ∅ :=
    (drawn_start ..).steps (.of_start ..) hproper
  have hopen : (freshSession.steps outlinedRun).isOpen 0 := by decide +kernel
  obtain ⟨buffer, view, hshows⟩ := hdrawn.shows hopen (Set.notMem_empty 0)
  have hpaths : view.map Row.path = [[], [0], [0, 0], [0, 1], [1]] := by
    rw [View.paths_of_ofTree hshows.depicts.drawn]
    decide +kernel
  have hfirst : (view.map Row.path)[1]? = some [0] := by rw [hpaths]; rfl
  rw [List.getElem?_map] at hfirst
  obtain ⟨r, hr, hpath⟩ := Option.map_eq_some_iff.1 hfirst
  obtain ⟨hat, -⟩ := View.at?_of_ofTree hshows.depicts.drawn (List.mem_of_getElem? hr)
  rw [hpath] at hat
  have hnode : (((freshSession.steps outlinedRun).tree 0).root.at? [0]).map
      (fun n => (n.expanded, n.children.length)) = some (true, 2) := by decide +kernel
  rw [hat] at hnode
  obtain ⟨hexpanded, hchildren⟩ := Prod.mk.inj (Option.some.inj hnode)
  have hfoldable : (freshSession.steps outlinedRun).Foldable 0 buffer view 1 r :=
    ⟨hopen, hshows, hr, by simp [hpath], hexpanded, fun hnil => by simp [hnil] at hchildren⟩
  have hfilter : (view.below r.path).map Row.path =
      (view.map Row.path).filter fun p => [0].isPrefixOf p && p != [0] := by
    rw [View.below, hpath, List.filter_map]
    rfl
  have hlength := congrArg List.length hfilter
  rw [List.length_map, hpaths] at hlength
  exact ⟨buffer, view, r, hfoldable, hpath, hlength⟩

theorem folds_outlinedRun : ∃ buffer view r,
    (freshSession.steps outlinedRun).Foldable 0 buffer view 1 r ∧ (view.below r.path).length = 2 ∧
    ∃ t after view', collapse 0 ⟨0, ((freshSession.steps outlinedRun).tree 0).place r.path⟩
        (freshSession.steps outlinedRun) = .ok () t ∧
      (freshSession.steps outlinedRun).Folds t 0 buffer after 1 (view.below r.path).length r ∧
        t.Shows 0 after view' := by
  obtain ⟨buffer, view, r, hfoldable, -, hbelow⟩ := foldable_outlinedRun
  obtain ⟨-, t, after, view', hcollapse, hfolds, hshown, -⟩ :=
    folds_steps .server _ _ _ outlinedRun hfoldable
  exact ⟨buffer, view, r, hfoldable, hbelow, t, after, view', hcollapse, hfolds, hshown⟩

end Session

end SymbolTrees
