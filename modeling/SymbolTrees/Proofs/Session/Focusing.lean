import SymbolTrees.Proofs.Session.Folding
import SymbolTrees.Proofs.Session.Sending

/-!
# Focus

A node on which a user focuses gets a tree of its own, with a copy of all that is below it. Nothing
of the first tree changes. What is on display of the copy is the block of the node, row by row, but
with the indents that it has once it begins at the margin.
-/

namespace SymbolTrees

namespace Node

variable {n : Node} {k : Int}

/-- The node `y` of a copy is `x`, `k` levels further up. -/
structure Mirrors (k : Int) (x y : Node) : Prop where
  payload : y.payload = x.payload
  expanded : y.expanded = x.expanded
  callRanges : y.callRanges = x.callRanges
  depth : y.depth = x.depth - k

/-- A copy has for every node the copy of it at the same place, as far up as the copy begins. The
root of the copy may wait. -/
theorem mirrors_copy {d : Direction} (hn : n.All (Fits d)) (pending : Option Token)
    (path : List Nat) : Option.Rel (Mirrors n.depth) (n.at? path)
      (({ n.copy 0 with pending := pending } : Node).at? path) := by
  cases path with
  | nil =>
    refine .some ⟨copy_payload .., copy_expanded .., copy_callRanges .., ?_⟩
    have hdepth := copy_depth 0 n
    show (n.copy 0).depth = n.depth - n.depth
    omega
  | cons i path =>
    show Option.Rel _ _ ((n.copy 0).at? (i :: path))
    rw [at?_copy]
    cases hx : n.at? (i :: path) with
    | none => exact .none
    | some x =>
      refine .some ⟨copy_payload .., copy_expanded .., copy_callRanges .., ?_⟩
      have hdepth := depth_at? hn hx
      rw [copy_depth]
      omega

/-- No other node of a copy waits. -/
theorem pending_of_copy {pending : Option Token} {path : List Nat} {m : Node}
    (hm : ({ n.copy 0 with pending := pending } : Node).at? path = some m) :
    m.pending = none ∨ path = [] ∧ m.pending = pending := by
  cases path with
  | nil =>
    obtain rfl := Option.some.inj hm
    exact .inr ⟨rfl, rfl⟩
  | cons i path => exact .inl (all_idle_copy 0 n (i :: path) m hm)

/-- The row of a node without its indent. -/
def label (n : Node) (style : Style) : Text :=
  Text.ofChars [n.sign style.icons, ' '] ++ n.caption style.icons

theorem rowText_eq (n : Node) (style : Style) :
    n.rowText style = Text.ofChars (style.indent n.depth) ++ n.label style := by
  simp [rowText, label, Text.ofChars]

/-- A copy is labelled as what it is a copy of. -/
theorem label_copy (depth : Int) (n : Node) (style : Style) :
    (n.copy depth).label style = n.label style := by
  have hleaf : (n.copy depth).isLeaf = n.isLeaf := by simp [isLeaf, children_copy]
  simp only [label, sign, caption, name, kind, hleaf, copy_payload, copy_expanded]

/-! ### What is on display of a copy -/

mutual

/-- Where a node stands is the beginning of all paths below it. -/
theorem visible_append (front base : List Nat) : (n : Node) →
    n.visible (front ++ base) = (n.visible base).map (Prod.map (front ++ ·) id)
  | ⟨payload, depth, expanded, pending, callRanges, children⟩ => by
    rw [visible, visible, List.map_cons, visibleAll_front front base 0 children]
    split <;> rfl

theorem visibleAll_front (front base : List Nat) (i : Nat) : (nodes : List Node) →
    visibleAll (front ++ base) i nodes =
      (visibleAll base i nodes).map (Prod.map (front ++ ·) id)
  | [] => rfl
  | node :: rest => by
    rw [visibleAll, visibleAll, List.map_append, List.append_assoc, visible_append front _ node,
      visibleAll_front front base (i + 1) rest]

end

mutual

/-- Below the root, a copy shows its children where the node does. -/
theorem visible_copy (base : List Nat) : (n : Node) →
    (n.All fun m => ∀ c ∈ m.children, c.depth = m.depth + 1) → 0 < n.depth → k < n.depth →
      (n.copy (n.depth - k)).visible base =
        (n.visible base).map (Prod.map id fun m => m.copy (m.depth - k))
  | ⟨payload, depth, expanded, pending, callRanges, children⟩, hsteps, hd, hk => by
    obtain ⟨hroot, hbelow⟩ := all_iff.1 hsteps
    have hd : 0 < depth := hd
    have hk : k < depth := hk
    have hc := visibleAll_copy base 0 (depth + 1) children
      (fun c hm => ⟨hroot c hm, hbelow c hm⟩) (by omega) (by omega)
    have hdepth : depth + 1 - k = depth - k + 1 := by omega
    have hshows : (expanded || depth - k == 0) = (expanded || depth == 0) := by
      have h : depth - k ≠ 0 := by omega
      have h' : depth ≠ 0 := by omega
      rw [beq_false_of_ne h, beq_false_of_ne h']
    rw [hdepth] at hc
    show (Node.mk payload (depth - k) expanded none callRanges
      (copyAll (depth - k + 1) children)).visible base = _
    rw [visible, visible, hc, hshows, List.map_cons]
    split <;> rfl

theorem visibleAll_copy (base : List Nat) (i : Nat) (depth : Int) : (nodes : List Node) →
    (∀ c ∈ nodes, c.depth = depth ∧ c.All fun m => ∀ c ∈ m.children, c.depth = m.depth + 1) →
      0 < depth → k < depth → visibleAll base i (copyAll (depth - k) nodes) =
        (visibleAll base i nodes).map (Prod.map id fun m => m.copy (m.depth - k))
  | [], _, _, _ => rfl
  | node :: rest, h, hd, hk => by
    obtain ⟨hdepth, hsteps⟩ := h node List.mem_cons_self
    have hnode := visible_copy (base ++ [i]) node hsteps (by omega) (by omega)
    rw [hdepth] at hnode
    rw [copyAll, visibleAll, visibleAll, List.map_append, hnode,
      visibleAll_copy base (i + 1) depth rest (fun c hc => h c (List.mem_cons_of_mem _ hc)) hd hk]

end

/-- **The copy of a node that shows its children shows the same nodes below it.** -/
theorem visible_copy_root (base : List Nat) (hs : n.showsChildren) (hd : 0 ≤ n.depth)
    (hsteps : n.All fun m => ∀ c ∈ m.children, c.depth = m.depth + 1) :
    (n.copy 0).visible [] = (n.visible base).map fun e =>
      (e.1.drop base.length, e.2.copy (e.2.depth - n.depth)) := by
  obtain ⟨hroot, hbelow⟩ := all_iff.1 hsteps
  have hall := visibleAll_copy (k := n.depth) [] 0 (n.depth + 1) n.children
    (fun c hc => ⟨hroot c hc, hbelow c hc⟩) (by omega) (by omega)
  have hbase : n.visible base = (n.visible []).map (Prod.map (base ++ ·) id) := by
    rw [← visible_append, List.append_nil]
  have hone : n.depth + 1 - n.depth = 1 := by omega
  have hshows : (n.copy 0).showsChildren = true := by simp [showsChildren, copy_depth]
  have hchildren : (n.copy 0).children = copyAll 1 n.children := by
    cases n
    rfl
  rw [hone] at hall
  rw [hbase, List.map_map, visible_eq, visible_eq, hs, hshows, hchildren, if_pos rfl, if_pos rfl,
    hall, List.map_cons, List.cons.injEq]
  constructor
  · simp
  · refine List.map_congr_left fun e _ => ?_
    simp [Prod.map]

end Node

/-- The row of a copy, where what it is a copy of was at `base` and `k` levels deeper. -/
def Row.moved (r : Row) (base : List Nat) (k : Int) (style : Style) : Row :=
  let copy := r.node.copy (r.node.depth - k)
  ⟨r.path.drop base.length, copy, copy.rowText style, r.detail, r.source⟩

namespace View

variable {t : Tree} {style : Style} {view rows : View} {document : Option Text} {i : Nat} {r : Row}

theorem Draws.moved {nodes : List (List Nat × Node)} (h : Draws document style nodes rows)
    (base : List Nat) (k : Int) : Draws document style
      (nodes.map fun e => (e.1.drop base.length, e.2.copy (e.2.depth - k)))
      (rows.map fun r => r.moved base k style) := by
  unfold Draws
  rw [List.forall₂_map_left_iff, List.forall₂_map_right_iff]
  refine List.Forall₂.imp (fun e r hr => ?_) h
  obtain ⟨hpath, hnode, -⟩ := text_of_row hr
  have hcopy := row_of_payload (Node.copy_payload (e.2.depth - k) e.2) (e.1.drop base.length) hr
  rw [hcopy, Row.moved, hpath, hnode]

/-- **The copy of a node is drawn as the block of the node.** -/
theorem ofTree_copy {u : Tree} (hv : ofTree t style = .ok view) (hi : view[i]? = some r)
    (hc : t.root.Counted) (hopen : r.path = [] ∨ r.node.expanded) (hroot : u.root = r.node.copy 0)
    (huri : u.uri = t.uri) : ofTree u style = .ok
      ((r :: view.below r.path).map fun x => x.moved r.path r.node.depth style) := by
  obtain ⟨above, beneath, hparted⟩ := exists_parted hv hi
  obtain ⟨hat, -⟩ := at?_of_ofTree hv (List.mem_of_getElem? hi)
  have hshows : r.node.showsChildren := (hc.showsChildren_iff hat).2 hopen
  have hdepth : 0 ≤ r.node.depth := by
    rw [hc.depth hat]
    omega
  rw [ofTree_iff, hroot, huri, Node.visible_copy_root r.path hshows hdepth (hc.below.sub hat)]
  exact hparted.block.moved r.path r.node.depth

end View

namespace Session

variable {s t u v : Session} {id new : TreeId} {ref : NodeRef} {token : Option Token}

/-- A new tree is ready to be drawn: at most its root waits, for a request of its own. -/
structure Readied (u : Session) (new : TreeId) (v : Session) : Prop where
  moves : Moves u v
  isOpen : v.isOpen new
  style : v.style = u.style
  tree : ∃ pending, (pending = none ∨ pending = some u.nextToken) ∧
    v.tree new = { u.tree new with root := { (u.tree new).root with pending := pending } }
  others : ∀ other ≠ new, v.tree other = u.tree other

theorem readied_self (ho : u.isOpen new) (hp : (u.tree new).root.pending = none) :
    u.Readied new u := by
  refine ⟨.refl, ho, rfl, ⟨none, .inl rfl, ?_⟩, fun _ _ => rfl⟩
  rw [← hp]
  have hroot : ({ (u.tree new).root with pending := (u.tree new).root.pending } : Node) =
      (u.tree new).root := by
    cases (u.tree new).root
    rfl
  rw [hroot]

/-- A new tree that is asked for. -/
theorem Asks.readied (h : Asks u new (u.rootOf new) token v) (hs : u.Sound) (ho : u.isOpen new)
    (hp : (u.tree new).root.pending = none) : u.Readied new v := by
  have hmoves := h.moves
  cases h with
  | known => exact readied_self ho hp
  | sent askable timely =>
    refine ⟨hmoves, Registry.isOpen_updateNode.trans ho, rfl, ⟨_, .inr rfl, ?_⟩, fun other hne => ?_⟩
    · have hstands := hs.stands (member_rootOf ho)
      exact (Registry.tree_updateNode_self hstands.planted).trans
        (Tree.modify_of_isCurrent hstands.current)
    · exact Registry.tree_update_of_ne hne

/-- A focused node is copied to a new tree, which is asked for if it is to be, and drawn. -/
theorem ends_focus_planted (h : s.Sound) (id : TreeId) (ref : NodeRef) : (focus id ref).Ends s
    (fun new t => s.Member id ref ∧ new = s.registry.trees.length ∧ ∃ u v view,
      s.Plants new ⟨s.registry.nextHandle, (s.node ref).copy 0, (s.tree id).direction,
        (s.tree id).uri, false, false, [], [], []⟩ u ∧ u.Readied new v ∧
          View.ofTree (v.tree new) v.style = .ok view ∧ t = v.shown new view)
    fun _ _ => True := by
  obtain ⟨kind, hk⟩ := (h.grown id).known
  refine ends_focus h (fun _ _ => trivial) fun hm => ?_
  have hseed := h.seed_copy hm
  rw [Node.copy_at_depth] at hseed ⊢
  refine ends_plant h hseed hk fun u hp => ?_
  have hu := h.moves hp.moves
  have hidle : (u.tree s.registry.trees.length).root.pending = none := by
    rw [hp.tree]
    exact Node.copy_pending 0 (s.node ref)
  have hdrawn {v : Session} (hv : u.Readied s.registry.trees.length v) :
      (present false s.registry.trees.length).Ends v (fun new t => s.Member id ref ∧
        new = s.registry.trees.length ∧ ∃ u v view,
          s.Plants new ⟨s.registry.nextHandle, (s.node ref).copy 0, (s.tree id).direction,
            (s.tree id).uri, false, false, [], [], []⟩ u ∧ u.Readied new v ∧
              View.ofTree (v.tree new) v.style = .ok view ∧ t = v.shown new view)
        fun _ _ => True := by
    refine .bind ((ends_render hv.isOpen).mono ?_ fun _ _ _ => trivial)
    rintro view _ ⟨hview, rfl⟩
    exact .pure ⟨hm, rfl, u, v, view, hp, hv, hview, rfl⟩
  cases (s.tree id).isCallTree && !(s.node ref).isResolved with
  | false => exact hdrawn (readied_self hp.isOpen hidle)
  | true =>
    rw [present_true]
    refine .bind (.get (.bind ((ends_askChildren hu (member_rootOf hp.isOpen)).mono ?_ ?_)))
    · exact fun token v hasks => hdrawn (hasks.readied hu hp.isOpen hidle)
    · exact fun _ _ _ => trivial

/-- From `s` to `t` the node at `ref` got a tree of its own. -/
structure Focuses (s t : Session) (id : TreeId) (ref : NodeRef) (new : TreeId) : Prop where
  member : s.Member id ref
  planted : new = s.registry.trees.length
  isOpen : t.isOpen new
  /-- Its handle is above all that were given out. -/
  handle : ∀ other < s.registry.trees.length, (s.tree other).handle < (t.tree new).handle
  direction : (t.tree new).direction = (s.tree id).direction
  uri : (t.tree new).uri = (s.tree id).uri
  /-- Its nodes are those below the focused node, each at its own place. -/
  nodes : ∀ path, Option.Rel (Node.Mirrors (s.node ref).depth) ((s.node ref).at? path)
    ((t.tree new).root.at? path)
  /-- None of them waits, unless the root waits for a request that nobody waited for before. -/
  waits : ∀ path n, (t.tree new).root.at? path = some n →
    n.pending = none ∨ path = [] ∧ n.pending = some s.nextToken
  unasked : ∀ other path n, (s.tree other).root.at? path = some n → n.pending ≠ some s.nextToken
  others : ∀ other < s.registry.trees.length, t.tree other = s.tree other

/-- The block of row `i` is on display again, as the new tree: the same rows without the indent of
the first. -/
structure Lifts (s : Session) (view : View) (i : Nat) (r : Row) (after : Buffer) : Prop where
  block : (view.drop i).take (1 + (view.below r.path).length) = r :: view.below r.path
  length : after.lines.length = 1 + (view.below r.path).length
  rows : ∀ (j : Nat) (x : Row), (r :: view.below r.path)[j]? = some x →
    view.lines[i + j]? = some (Text.ofChars (s.style.indent x.node.depth) ++ x.node.label s.style) ∧
    after.lines[j]? = some (Text.ofChars (s.style.indent (x.node.depth - r.node.depth)) ++
      x.node.label s.style)
  notes : ∀ j : Nat, after.annotations.get? ((j + 1 : Nat) : Int) =
    if j < 1 + (view.below r.path).length then Table.get? view.annotations ((i + j + 1 : Nat) : Int)
    else none

theorem focuses_of_ok (h : s.Sound) (hf : focus id ref s = .ok new t) : s.Focuses t id ref new := by
  obtain ⟨hm, rfl, u, v, view, hplants, hready, hview, rfl⟩ := (ends_focus_planted h id ref).of_ok hf
  obtain ⟨pending, hpending, hroot⟩ := hready.tree
  have hv := (h.moves hplants.moves).moves hready.moves
  have htree : (v.shown s.registry.trees.length view).tree s.registry.trees.length =
      ({ u.tree s.registry.trees.length with root :=
        { (u.tree s.registry.trees.length).root with pending := pending } } : Tree).show view := by
    rw [tree_shown hready.isOpen hv, hroot]
  rw [hplants.tree] at htree
  have hat (path : List Nat) :
      ((v.shown s.registry.trees.length view).tree s.registry.trees.length).root.at? path =
        ({ (s.node ref).copy 0 with pending := pending } : Node).at? path := by
    rw [htree]
    rfl
  have hfits := (h.grown id).fits.sub (hm.occurs h).found
  refine ⟨hm, rfl, ?_, ?_, by rw [htree]; rfl, by rw [htree]; rfl, ?_, ?_, ?_, ?_⟩
  · exact (isOpen_shown _ _ _).trans hready.isOpen
  · intro other hlt
    rw [htree]
    exact h.registry.issued other hlt
  · intro path
    rw [hat]
    exact Node.mirrors_copy hfits pending path
  · intro path n hn
    rw [hat] at hn
    rcases Node.pending_of_copy hn with hnone | ⟨rfl, he⟩
    · exact .inl hnone
    · rw [he, ← hplants.nextToken]
      exact hpending.imp_right fun he => ⟨rfl, he⟩
  · intro other path n hn he
    exact lt_irrefl _ (h.waiting.nodes other path n _ hn he).1
  · intro other hlt
    have hne : other ≠ s.registry.trees.length := Nat.ne_of_lt hlt
    exact (Registry.tree_update_of_ne hne).trans
      ((hready.others other hne).trans (hplants.others other hlt).1)

theorem lifts_of_ok (hd : s.Drawn Set.univ) (hf : focus id ref s = .ok new t) {view : View} {i : Nat}
    {r : Row} (hv : View.ofTree (s.tree id) s.style = .ok view) (hi : view[i]? = some r)
    (hpath : r.path = ref.place.path) (hopen : r.path = [] ∨ r.node.expanded) :
    ∃ after view', t.Shows new after view' ∧ s.Lifts view i r after := by
  have h := hd.sound
  obtain ⟨hm, rfl, u, v, view', hplants, hready, hview, rfl⟩ := (ends_focus_planted h id ref).of_ok hf
  have hdv := (hd.moves hplants.moves).moves hready.moves
  have hstyle : v.style = s.style := hready.style.trans hplants.style
  have hnode : s.node ref = r.node := by
    have hat := (View.at?_of_ofTree hv (List.mem_of_getElem? hi)).1
    rw [hpath, (hm.occurs h).found] at hat
    exact Option.some.inj hat
  -- The new tree is drawn as a copy that waits for nothing.
  obtain ⟨pending, -, hroot⟩ := hready.tree
  rw [hplants.tree] at hroot
  have hcopy := View.ofTree_copy (u := ⟨s.registry.nextHandle, (s.node ref).copy 0,
    (s.tree id).direction, (s.tree id).uri, false, false, [], [], []⟩) hv hi
      (h.grown id).counted hopen (by rw [hnode]) rfl
  have hidle : (v.tree s.registry.trees.length).root.idle = ((s.node ref).copy 0).idle := by
    rw [hroot]
    exact Node.idle_pending ..
  obtain ⟨view'', hview'', hsame⟩ := View.ofTree_of_idle hidle (by rw [hroot]) hcopy
  obtain rfl : view'' = view' := by
    rw [hstyle, hview''] at hview
    exact Except.ok.inj hview
  obtain ⟨after, hshows⟩ := hdv.shows_shown hready.isOpen hview
  have hblock : (view.drop i).take (1 + (view.below r.path).length) = r :: view.below r.path := by
    rw [View.drop_of_getElem? hv hi, Nat.add_comm, List.take_succ_cons, List.take_left]
  have hget (j : Nat) : (r :: view.below r.path)[j]? =
      if j < 1 + (view.below r.path).length then view[i + j]? else none := by
    rw [← hblock, List.getElem?_take, List.getElem?_drop]
  refine ⟨after, view'', hshows, hblock, ?_, fun j x hx => ⟨?_, ?_⟩, fun j => ?_⟩
  · rw [hshows.depicts.lines, ← hsame.lines, View.lines]
    simp [Nat.add_comm]
  · have hrow := hget j
    rw [hx] at hrow
    split at hrow
    · have htext := (View.at?_of_ofTree hv (List.mem_of_getElem? hrow.symm)).2
      rw [View.lines, List.getElem?_map, ← hrow, Option.map_some, htext, Node.rowText_eq]
    · cases hrow
  · rw [hshows.depicts.lines, ← hsame.lines, View.lines, List.getElem?_map, List.getElem?_map, hx,
      Option.map_some, Option.map_some, Row.moved, Node.rowText_eq, Node.copy_depth, Node.label_copy]
  · rw [hshows.depicts.annotations, ← hsame.annotations, View.get?_annotations, List.getElem?_map,
      hget, View.get?_annotations]
    split
    · cases view[i + j]? <;> rfl
    · rfl

/-- **Focus shows the same rows, moved to the margin**: whenever a node of a tree is focused on, in
any session that a run leads to, it gets a tree of its own with a copy of all that is below it, and
nothing of the other trees changes. If the node is on display and shows what is below it, its block
of rows is what is on display of the new tree. -/
theorem focuses_steps (client : Client) (settings : Settings) (root : Path) (now : Number)
    (events : List Event)
    (focused : focus id ref ((start client settings root now).steps events) = .ok new t) :
    ((start client settings root now).steps events).Focuses t id ref new ∧
    ∀ view i r,
      View.ofTree (((start client settings root now).steps events).tree id)
        ((start client settings root now).steps events).style = .ok view →
      view[i]? = some r → r.path = ref.place.path → (r.path = [] ∨ r.node.expanded) →
        ∃ after view', t.Shows new after view' ∧
          ((start client settings root now).steps events).Lifts view i r after :=
  have hd := drawn_steps client settings root now events
  ⟨focuses_of_ok hd.sound focused,
    fun _ _ _ hv hi hpath hopen => lifts_of_ok hd focused hv hi hpath hopen⟩

/-- The class of the outline is focused on. -/
theorem focuses_outlinedRun : ∃ t, focus 0 ⟨0, 0, [0]⟩ (freshSession.steps outlinedRun) = .ok 1 t ∧
    (freshSession.steps outlinedRun).Focuses t 0 ⟨0, 0, [0]⟩ 1 ∧
    ∃ view r after view', view[1]? = some r ∧ r.path = [0] ∧ t.Shows 1 after view' ∧
      (freshSession.steps outlinedRun).Lifts view 1 r after := by
  obtain ⟨buffer, view, r, hfoldable, hpath, -⟩ := foldable_outlinedRun
  have hok : (match focus 0 ⟨0, 0, [0]⟩ (freshSession.steps outlinedRun) with
    | .ok .. => true
    | .error .. => false) = true := by decide +kernel
  cases hf : focus 0 ⟨0, 0, [0]⟩ (freshSession.steps outlinedRun) with
  | error e t =>
    rw [hf] at hok
    cases hok
  | ok new t =>
    have hboth := focuses_steps .server _ _ _ outlinedRun hf
    have hfocuses : (freshSession.steps outlinedRun).Focuses t 0 ⟨0, 0, [0]⟩ new := hboth.1
    have hnew : new = 1 := by
      have hlength : (freshSession.steps outlinedRun).registry.trees.length = 1 := by
        decide +kernel
      exact hfocuses.planted.trans hlength
    subst hnew
    obtain ⟨after, view', hshows, hlift⟩ := hboth.2 view 1 r hfoldable.shows.depicts.drawn
      hfoldable.row hpath (.inr hfoldable.expanded)
    exact ⟨t, rfl, hfocuses, view, r, after, view', hfoldable.row, hpath, hshows, hlift⟩

end Session

end SymbolTrees
