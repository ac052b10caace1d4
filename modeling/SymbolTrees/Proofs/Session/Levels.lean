import SymbolTrees.Proofs.Outline
import SymbolTrees.Proofs.Session.Folding
import SymbolTrees.Proofs.Session.Play
import SymbolTrees.Proofs.Session.Unfold

/-!
# Outlines unfolded to a level

An outline is complete from the start, so it is unfolded without asking anybody. The nodes of one
level are expanded one by one, each drawing the outline anew, and whatever is on display of the
level when its round begins is expanded when it ends. Pumping in between changes nothing where no
request is under way.
-/

namespace SymbolTrees

open Node (documentPayload)

/-! ### Outlines that are open -/

/-- An outline that is open: its tree, its document, its root as it was made, and all that had been
sent when it was opened. Whatever is in it can be drawn. -/
structure Outline where
  tree : TreeId
  document : Text
  root : Node
  sent : List Sent
  readable : ∀ entry ∈ root.listing, ∀ uri ∈ (Node.leaf entry.2 entry.1 []).uris (some document),
    ∃ parts, Uri.ofText uri = .ok parts

namespace Outline

variable {o : Outline} {level : Nat} {done : List (List Nat)} {t : Tree} {path : List Nat}
  {style : Style} {m : Node}

/-- The tree has the nodes of the outline. Those above the level are expanded, and of the level
itself those on the paths of `done`. -/
structure Spread (o : Outline) (level : Nat) (done : List (List Nat)) (t : Tree) : Prop where
  grown : t.Grown
  direction : t.direction = .outline
  document : t.uri = some o.document
  generation : t.generation = 0
  listing : t.root.listing = o.root.listing
  paths : ∀ path, (∃ m, t.root.at? path = some m) ↔ ∃ m, o.root.at? path = some m
  expanded : ∀ path m, t.root.at? path = some m →
    (m.expanded ↔ path.length < level ∨ path.length = level ∧ path ∈ done)

namespace Spread

/-- An outline can be drawn. -/
theorem exists_ofTree (h : o.Spread level done t) (style : Style) :
    ∃ view, View.ofTree t style = .ok view := by
  refine View.exists_ofTree_of_readable style h.grown.counted fun path m _ hm uri huri => ?_
  rw [h.document] at huri
  exact o.readable (m.depth, m.payload) (h.listing ▸ Node.mem_listing_of_at? hm) uri huri

/-- Nobody can be asked for what is below a node of an outline. -/
theorem callItem? (h : o.Spread level done t) (hm : t.root.at? path = some m) :
    m.payload.callItem? = none := by
  have hitem := (h.grown.fits path m hm).item
  rw [h.direction] at hitem
  exact Option.not_isSome_iff_eq_none.1 (Bool.eq_false_iff.1 hitem)

theorem shown (h : o.Spread level done t) (view : View) : o.Spread level done (t.show view) :=
  ⟨⟨h.grown.known, h.grown.depth, h.grown.fits⟩, h.direction, h.document, h.generation, h.listing,
    h.paths, h.expanded⟩

/-- Nothing is to be done on a path that leads to no node of the level, or to one that is
expanded. -/
theorem cons_of_expanded (h : o.Spread level done t) (hdone : ∀ m, t.root.at? path = some m →
    path.length = level → m.expanded) : o.Spread level (path :: done) t := by
  refine ⟨h.grown, h.direction, h.document, h.generation, h.listing, h.paths, fun q m hm => ?_⟩
  rw [h.expanded q m hm]
  constructor
  · exact Or.imp_right (And.imp_right (List.mem_cons_of_mem _))
  · rintro (hlt | ⟨hlength, hq⟩)
    · exact .inl hlt
    · rcases List.mem_cons.1 hq with rfl | hq
      · exact (h.expanded q m hm).1 (hdone m hm hlength)
      · exact .inr ⟨hlength, hq⟩

/-- A node of the level is expanded. -/
theorem opened (h : o.Spread level done t) (hm : t.root.at? path = some m)
    (hlength : path.length = level) :
    o.Spread level (path :: done) (t.modify ⟨0, path⟩ Node.opened) := by
  have hcurrent : t.IsCurrent ⟨0, path⟩ := .inr h.generation.symm
  have hfits (x : Node) (hx : t.root.at? path = some x) : (Node.opened x).Fits t.direction := by
    have hx := h.grown.fits path x hx
    rw [h.direction] at hx ⊢
    exact ⟨hx.depths, hx.item, nofun, fun hw => absurd (hx.waiting hw).1 Bool.false_ne_true⟩
  have hbecomes (x : Node) : x.Becomes (Node.opened x) := ⟨rfl, .inl rfl⟩
  have hgrown : (t.modify ⟨0, path⟩ Node.opened).Grown :=
    h.grown.modify hcurrent (fun x _ => hbecomes x) hfits fun x hx hleaf c hc =>
      absurd (hleaf ▸ hc : c ∈ []) List.not_mem_nil
  have hdirection : (t.modify ⟨0, path⟩ Node.opened).direction = .outline :=
    Tree.direction_modify.trans h.direction
  have hgeneration : (t.modify ⟨0, path⟩ Node.opened).generation = 0 :=
    (Tree.generation_modify hcurrent).trans h.generation
  rw [Tree.modify_of_isCurrent hcurrent] at hgrown hdirection hgeneration ⊢
  -- No node is new, and no other node is expanded or not for it.
  have hold {q : List Nat} {y : Node} (hy : (t.root.modifyAt Node.opened path).at? q = some y) :
      q ≠ path ∧ (∃ x, t.root.at? q = some x ∧ x.Resembles y) ∨
        q = path ∧ y = Node.opened m := by
    rcases Node.at?_modifyAt_cases (fun x _ => hbecomes x) hy with
      hother | ⟨rfl, x, hx, rfl⟩ | ⟨x, i, rest, -, hleaf, -, hy⟩
    · exact .inl hother
    · obtain rfl := Option.some.inj (hm.symm.trans hx)
      exact .inr ⟨rfl, rfl⟩
    · have hbare : (Node.opened x).children = [] := hleaf
      rw [Node.at?_cons_of_leaf hbare] at hy
      cases hy
  refine ⟨hgrown, hdirection, h.document, hgeneration, ?_, fun q => ?_, fun q y hy => ?_⟩
  · refine (Node.listing_modifyAt fun x => ?_).trans h.listing
    rw [Node.listing_eq, Node.listing_eq x]
    rfl
  · rw [← h.paths q]
    constructor
    · rintro ⟨y, hy⟩
      rcases hold hy with ⟨-, x, hx, -⟩ | ⟨rfl, -⟩
      · exact ⟨x, hx⟩
      · exact ⟨m, hm⟩
    · rintro ⟨x, hx⟩
      by_cases hq : q = path
      · subst hq
        exact ⟨_, (Node.at?_modifyAt Node.opened q t.root).trans (congrArg (Option.map _) hx)⟩
      · obtain ⟨y, hy, -⟩ := Node.at?_modifyAt_of_ne (fun x _ => hbecomes x) hq hx
        exact ⟨y, hy⟩
  · rcases hold hy with ⟨hne, x, hx, hresembles⟩ | ⟨rfl, rfl⟩
    · rw [hresembles.expanded, h.expanded q x hx, List.mem_cons, or_iff_right hne]
    · exact ⟨fun _ => .inr ⟨hlength, List.mem_cons_self⟩, fun _ => rfl⟩

/-- So it is when the outline is planted. -/
theorem of_made {entries : List Node.Entry} (h : Node.outline o.document entries = .ok o.root)
    (hu : o.root.UnfoldedTo 1) (handle : Int) :
    o.Spread 1 [] ⟨handle, { o.root with depth := 0 }, .outline, some o.document, false, false,
      [], [], []⟩ := by
  obtain ⟨hdepth, hfits⟩ := Node.all_fits_outline h
  rw [Node.with_depth hdepth]
  refine ⟨⟨⟨.outline, rfl⟩, hdepth, hfits⟩, rfl, rfl, rfl, rfl, fun _ => Iff.rfl,
    fun path m hm => ?_⟩
  have hlevel : m.depth = path.length := by
    rw [Node.depth_at? hfits hm, hdepth, Int.zero_add]
  have hexpanded : m.expanded = decide (m.depth < 1) := hu path m hm
  rw [hexpanded, hlevel, decide_eq_true_eq]
  refine (Int.ofNat_lt (m := 1)).trans ?_
  exact (or_iff_left fun hnone => List.not_mem_nil hnone.2).symm

/-- Once all nodes of the level are expanded, the next level can be. -/
theorem next (h : o.Spread level done t)
    (hall : ∀ path m, t.root.at? path = some m → path.length = level → path ∈ done) :
    o.Spread (level + 1) [] t := by
  refine ⟨h.grown, h.direction, h.document, h.generation, h.listing, h.paths, fun path m hm => ?_⟩
  rw [h.expanded path m hm, Nat.lt_succ_iff_lt_or_eq]
  refine (or_congr_right ⟨And.left, fun hl => ⟨hl, hall path m hm hl⟩⟩).trans ?_
  exact ⟨.inl, Or.rec id fun hnone => absurd hnone.2 List.not_mem_nil⟩

/-- All nodes down to the level are to be seen. -/
theorem isShown (h : o.Spread level done t) (hm : t.root.at? path = some m)
    (hl : path.length ≤ level) : t.root.Shown path := by
  induction path using List.reverseRecOn generalizing m with
  | nil => exact .root
  | append_singleton path i ih =>
    rw [List.length_append, List.length_singleton] at hl
    rw [Node.at?_append] at hm
    obtain ⟨n, hn, hm⟩ := Option.bind_eq_some_iff.1 hm
    obtain ⟨c, hc, -⟩ := Option.bind_eq_some_iff.1 hm
    refine .child (ih hn (Nat.le_of_succ_le hl)) hn (.inr ?_) (List.getElem?_eq_some_iff.1 hc).1
    exact (h.expanded path n hn).2 (.inl hl)

theorem unfoldedTo (h : o.Spread level [] t) : t.root.UnfoldedTo level := by
  intro path m hm
  rw [Bool.eq_iff_iff, h.expanded path m hm, decide_eq_true_eq, h.grown.depth_at? hm,
    Int.ofNat_lt]
  exact or_iff_left fun hnone => List.not_mem_nil hnone.2

end Spread

end Outline

namespace Session

variable {s t : Session}

/-! ### Pumping where nothing is under way -/

/-- No request is under way, and no lookup. -/
structure Quiescent (s : Session) : Prop where
  pending : s.pending = []
  lookups : ∀ token, s.lookups.get? token = none

theorem Sound.quiescent (h : s.Sound) (hp : s.pending = []) : s.Quiescent := by
  refine ⟨hp, fun token => ?_⟩
  by_contra hn
  obtain ⟨⟨parent, index⟩, hl⟩ := Option.ne_none_iff_exists'.1 hn
  obtain ⟨-, -, inquiry, hi, -⟩ := h.looking.known token parent index hl
  rw [hp] at hi
  cases hi

/-- What is still in the queue, and the journal, are all that differs. -/
def Settles (s t : Session) : Prop :=
  Moves s t ∧ ∃ journal, t = { s with arrivals := [], journal := journal }

/-- What nobody waits for is only noted. -/
theorem Quiescent.ends_complete (h : s.Quiescent) (arrival : Arrival) :
    (complete arrival).Ends s
      (fun results t => results = [] ∧ ∃ journal, t = { s with journal := journal })
      fun _ _ => False := by
  cases arrival with
  | reply token outcome =>
    have hnone : s.pending.get? token = none := by
      rw [h.pending]
      rfl
    unfold complete
    refine .bind (.get ?_)
    rw [hnone]
    exact .bind (.modify (.pure ⟨rfl, _, rfl⟩))
  | lookup token outcome =>
    unfold complete completeLookup
    refine .bind (.get ?_)
    rw [h.lookups]
    exact .bind (.modify (.pure ⟨rfl, _, rfl⟩))

theorem Quiescent.ends_applyArrivals (h : s.Quiescent) :
    (applyArrivals s.arrivals.length).Ends s (fun results t => results = [] ∧ s.Settles t)
      fun _ _ => False := by
  -- The queue varies, for it gets shorter with every arrival.
  generalize harrivals : s.arrivals = arrivals
  induction arrivals generalizing s with
  | nil =>
    refine .pure ⟨rfl, .refl, s.journal, ?_⟩
    rw [← harrivals]
  | cons arrival rest ih =>
    unfold applyArrivals
    refine .bind (.get ?_)
    rw [harrivals]
    have hrest : Quiescent { s with arrivals := rest } := ⟨h.pending, h.lookups⟩
    refine .bind (.modify (.bind ((hrest.ends_complete arrival).mono ?_ fun _ _ h => h)))
    rintro _ _ ⟨rfl, journal, rfl⟩
    have hnoted : Quiescent { s with arrivals := rest, journal := journal } :=
      ⟨h.pending, h.lookups⟩
    refine .bind ((ih hnoted rfl).mono ?_ fun _ _ h => h)
    rintro _ _ ⟨rfl, hmoves, later, rfl⟩
    exact .pure ⟨rfl, .head (.ignore harrivals) (.head (.journal _ journal) hmoves), later, rfl⟩

/-- **Where nothing is under way, pumping changes nothing** but that late arrivals are noted. -/
theorem Quiescent.ends_pump (h : s.Quiescent) :
    pump.Ends s (fun results t => results = [] ∧ s.Settles t) fun _ _ => False := by
  have hexpire : s.pending.mapM (fun entry => expire entry.2) = pure [] := by
    rw [h.pending]
    rfl
  unfold pump drain
  refine .bind (.bind (.get (.bind (h.ends_applyArrivals.mono ?_ fun _ _ h => h))))
  rintro _ _ ⟨rfl, hmoves, journal, rfl⟩
  refine .bind (.get (.bind (.pure (.bind (.get ?_)))))
  dsimp only
  rw [hexpire]
  exact .bind (.pure (.pure (.bind (.pure (.bind (.pure (.pure ⟨rfl, hmoves, journal, rfl⟩)))))))

/-! ### Levels -/

/-- The outline is open and drawn, with the nodes on some paths of a level expanded. Nothing is
under way, and nothing was sent since the outline was opened. -/
structure Unfolds (o : Outline) (level : Nat) (done : List (List Nat)) (s : Session) : Prop where
  drawn : s.Drawn {id | id ≠ o.tree}
  isOpen : s.isOpen o.tree
  spread : o.Spread level done (s.tree o.tree)
  pending : s.pending = []
  sent : s.sent = o.sent

namespace Unfolds

variable {o : Outline} {level : Nat} {done : List (List Nat)} {path : List Nat} {m : Node}
  (clock : Clock)

theorem place_eq (h : s.Unfolds o level done) (path : List Nat) :
    (s.tree o.tree).place path = ⟨0, path⟩ := by
  rw [Tree.place, h.spread.generation]

theorem node_of_some (h : s.Unfolds o level done)
    (hm : (s.tree o.tree).root.at? path = some m) : s.node ⟨o.tree, 0, path⟩ = m :=
  h.place_eq path ▸ (Occurs.mk h.isOpen hm).node

/-- Where there is no node, what is looked at is the root. -/
theorem node_of_none (h : s.Unfolds o level done)
    (hnone : (s.tree o.tree).root.at? path = none) :
    s.node ⟨o.tree, 0, path⟩ = (s.tree o.tree).root := by
  have hplace : (s.tree o.tree).IsCurrent ⟨0, path⟩ := .inr h.spread.generation.symm
  have hnode : (s.tree o.tree).node? ⟨0, path⟩ = none :=
    (Tree.node?_of_isCurrent hplace).trans hnone
  change (s.tree o.tree).node ⟨0, path⟩ = _
  rw [Tree.node, hnode]
  rfl

/-- A node of the level is expanded, and the outline is drawn. -/
theorem ends_expand (h : s.Unfolds o level done) (hm : (s.tree o.tree).root.at? path = some m)
    (hlength : path.length = level) (hclosed : m.expanded = false) :
    (expand o.tree ⟨o.tree, 0, path⟩).Ends s (fun _ t => t.Unfolds o level (path :: done))
      fun _ _ => False := by
  have hs := h.drawn.sound
  have hmember : s.Member o.tree ⟨o.tree, 0, path⟩ :=
    h.place_eq path ▸ (Occurs.mk h.isOpen hm).member
  have hunfolded : (s.unfolded ⟨o.tree, 0, path⟩ true).tree o.tree =
      (s.tree o.tree).modify ⟨0, path⟩ Node.opened :=
    Registry.tree_updateNode_self (hs.registry.lt_of_isOpen h.isOpen)
  have hspread := h.spread.opened hm hlength
  obtain ⟨view, hv⟩ := hspread.exists_ofTree s.style
  have hexpand : (expand o.tree ⟨o.tree, 0, path⟩).Ends s
      (fun _ t => t = (s.unfolded ⟨o.tree, 0, path⟩ true).shown o.tree view) fun _ _ => False := by
    refine Session.ends_expand hs (fun hn => absurd hmember hn) (fun _ he => ?_) (fun _ _ => ?_)
      fun _ _ hcalls => ?_
    · rw [h.node_of_some hm, hclosed] at he
      cases he
    · refine (ends_render_of_ofTree ?_ ?_).mono (fun _ _ ht => ht.2) fun _ _ he => he
      · exact Registry.isOpen_updateNode.trans h.isOpen
      · rw [hunfolded]
        exact hv
    · rw [h.spread.direction] at hcalls
      cases hcalls
  refine (hexpand.and (draws_expand h.drawn o.tree ⟨o.tree, 0, path⟩)).mono ?_ fun _ _ he => he.1
  rintro _ _ ⟨rfl, hdrawn⟩
  have hopen : (s.unfolded ⟨o.tree, 0, path⟩ true).isOpen o.tree :=
    Registry.isOpen_updateNode.trans h.isOpen
  have htree : ((s.unfolded ⟨o.tree, 0, path⟩ true).shown o.tree view).tree o.tree =
      ((s.tree o.tree).modify ⟨0, path⟩ Node.opened).show view := by
    have hsound : (s.unfolded ⟨o.tree, 0, path⟩ true).Sound :=
      hs.unfolded (hs.stands hmember) fun _ => .inr (h.node_of_some hm ▸ h.spread.callItem? hm)
    rw [tree_shown hopen hsound, hunfolded]
  refine ⟨hdrawn, (isOpen_shown _ _ _).trans hopen, ?_, h.pending, h.sent⟩
  rw [htree]
  exact hspread.shown view

/-- What time it is does not matter. -/
theorem ticked (h : s.Unfolds o level done) (now : Number) : (s.ticked now).Unfolds o level done :=
  ⟨h.drawn.ticked now, h.isOpen, h.spread, h.pending, h.sent⟩

/-- A node is expanded if it is one of the level and not expanded yet. -/
theorem ends_expandOn (h : s.Unfolds o level done) (hlevel : 0 < level) (line : Int)
    (path : List Nat) : (unfoldLevel.expandOn clock o.tree level (line, ⟨0, path⟩)).Ends s
      (fun _ t => t.Unfolds o level (path :: done)) fun _ _ => False := by
  have idle (hdone : ∀ m, (s.tree o.tree).root.at? path = some m → path.length = level →
      m.expanded) : s.Unfolds o level (path :: done) :=
    ⟨h.drawn, h.isOpen, h.spread.cons_of_expanded hdone, h.pending, h.sent⟩
  unfold unfoldLevel.expandOn
  refine .bind (.get ?_)
  dsimp only
  cases hm : (s.tree o.tree).root.at? path with
  | none =>
    have hroot : ((0 : Int) = level) = False := eq_false (by omega)
    rw [h.node_of_none hm, h.spread.grown.depth]
    simp only [hroot, decide_false, Bool.false_and, Bool.false_eq_true, if_false]
    exact .pure (idle fun m he => by cases hm.symm.trans he)
  | some m =>
    rw [h.node_of_some hm, h.spread.grown.depth_at? hm]
    split
    · rename_i hcond
      obtain ⟨hlength, hclosed⟩ := Bool.and_eq_true_iff.1 hcond
      rw [Bool.not_eq_true'] at hclosed
      refine .bind (.modify (.bind ?_))
      exact ((h.ticked (clock (.expanding level line) s.now)).ends_expand hm
        (Int.ofNat.inj (of_decide_eq_true hlength)) hclosed).mono (fun _ _ ht => .pure ht)
          fun _ _ he => he
    · rename_i hcond
      refine .pure (idle fun x hx hlength => ?_)
      obtain rfl := Option.some.inj (hm.symm.trans hx)
      simpa [hlength] using hcond

/-- Node by node, what is on display is expanded if it is of the level. -/
theorem ends_expandAll (h : s.Unfolds o level done) (hlevel : 0 < level)
    (entries : Table Int Place) (he : ∀ entry ∈ entries, entry.2.generation = 0) :
    Action.Ends (entries.forM (unfoldLevel.expandOn clock o.tree level)) s
      (fun _ t => t.Unfolds o level ((entries.map fun entry => entry.2.path).reverse ++ done))
      fun _ _ => False := by
  induction entries generalizing s done with
  | nil => exact .pure h
  | cons entry rest ih =>
    obtain ⟨line, generation, path⟩ := entry
    obtain ⟨hg, hrest⟩ := List.forall_mem_cons.1 he
    obtain rfl : generation = 0 := hg
    refine .bind ((h.ends_expandOn clock hlevel line path).mono ?_ fun _ _ he => he)
    rintro _ t ht
    rw [List.map_cons, List.reverse_cons, List.append_assoc]
    exact ih ht hrest

/-- **A whole level is expanded**, for all of it is on display when its round begins. -/
theorem ends_expandLevel (h : s.Unfolds o level []) (hlevel : 0 < level) :
    Action.Ends ((s.tree o.tree).lineMap.forM (unfoldLevel.expandOn clock o.tree level)) s
      (fun _ t => t.Unfolds o (level + 1) []) fun _ _ => False := by
  obtain ⟨buffer, view, -, hdepicts⟩ := h.drawn.depicted o.tree h.isOpen fun hn => hn rfl
  have hplaces : (s.tree o.tree).lineMap.map Prod.snd = view.map fun row => ⟨0, row.path⟩ := by
    rw [hdepicts.lineMap, view.places_lineMap]
    exact List.map_congr_left fun row _ => h.place_eq row.path
  have hgeneration : ∀ entry ∈ (s.tree o.tree).lineMap, entry.2.generation = 0 := by
    intro entry hm
    have hplace := List.mem_map_of_mem (f := Prod.snd) hm
    rw [hplaces] at hplace
    obtain ⟨row, -, he⟩ := List.mem_map.1 hplace
    rw [← he]
  refine (h.ends_expandAll clock hlevel _ hgeneration).mono ?_ fun _ _ he => he
  rintro _ t ht
  refine ⟨ht.drawn, ht.isOpen, ht.spread.next fun path m hm hlength => ?_, ht.pending, ht.sent⟩
  obtain ⟨x, hx⟩ := (h.spread.paths path).2 ((ht.spread.paths path).1 ⟨m, hm⟩)
  have hshown := h.spread.isShown hx (Nat.le_of_eq hlength)
  have hvisible : (path, x) ∈ (s.tree o.tree).root.visible [] := (Node.mem_visible_iff _).2
    ⟨path, rfl, hx, h.spread.grown.counted.open_iff.2 hshown⟩
  obtain ⟨row, hrow, rfl⟩ := View.exists_row_of_mem_visible hdepicts.drawn hvisible
  have hpaths : (s.tree o.tree).lineMap.map (fun entry => entry.2.path) = view.map Row.path := by
    have hsplit := congrArg (List.map Place.path) hplaces
    rwa [List.map_map, List.map_map] at hsplit
  rw [List.append_nil, List.mem_reverse, hpaths]
  exact List.mem_map_of_mem hrow

theorem settles (h : s.Unfolds o level done) (ht : s.Settles t) : t.Unfolds o level done := by
  obtain ⟨hmoves, journal, rfl⟩ := ht
  exact ⟨h.drawn.same (h.drawn.sound.moves hmoves) (.of_registry rfl rfl rfl), h.isOpen, h.spread,
    h.pending, h.sent⟩

/-- Nothing is waited for. -/
theorem ends_pumpUntilSettled (h : s.Unfolds o level done) (round n : Nat) :
    (pumpUntilSettledBy clock round (n + 1)).Ends s (fun _ t => t.Unfolds o level done)
      fun _ _ => False := by
  have hticked := h.ticked (clock (.pumping round n) s.now)
  unfold pumpUntilSettledBy
  refine .bind (.modify (.bind ?_))
  refine (hticked.drawn.sound.quiescent hticked.pending).ends_pump.mono ?_ fun _ _ he => he
  rintro _ t ⟨-, ht⟩
  have ht := hticked.settles ht
  refine .bind (.get ?_)
  rw [ht.pending]
  exact .pure ht

/-- **One level is unfolded.** -/
theorem ends_unfoldLevel (h : s.Unfolds o level []) (hlevel : 0 < level) :
    (unfoldLevel clock o.tree level).Ends s (fun _ t => t.Unfolds o (level + 1) [])
      fun _ _ => False := by
  unfold unfoldLevel
  refine .bind (.get (.bind ((h.ends_expandLevel clock hlevel).mono ?_ fun _ _ he => he)))
  rintro _ t ht
  exact ht.ends_pumpUntilSettled clock level 99

/-- **An outline is unfolded by as many levels as are asked for.** -/
theorem ends_unfoldFrom (h : s.Unfolds o level []) (hlevel : 0 < level) (n : Nat) :
    (unfoldFrom clock o.tree level n).Ends s (fun _ t => t.Unfolds o (level + n) [])
      fun _ _ => False := by
  induction n generalizing s level with
  | zero => exact .pure h
  | succ n ih =>
    unfold unfoldFrom
    refine .bind ((h.ends_unfoldLevel clock hlevel).mono ?_ fun _ _ he => he)
    rintro _ t ht
    rw [← Nat.add_assoc, Nat.add_right_comm]
    exact ih ht (Nat.succ_pos level)

/-- **An outline is opened** with its root alone expanded. -/
theorem ends_openOutline {entries : List Node.Entry} (hd : s.Drawn Set.univ)
    (hp : s.pending = []) (htree : o.tree = s.registry.trees.length) (hsent : o.sent = s.sent)
    (hmade : Node.outline o.document entries = .ok o.root) (hu : o.root.UnfoldedTo 1) :
    (openOutline o.document (Node.outline o.document entries)).Ends s
      (fun id t => id = o.tree ∧ t.Unfolds o 1 []) fun _ _ => False := by
  -- Whatever is open already may be drawn as it is not, the new tree is none of it.
  have hother : s.Drawn {id | id ≠ o.tree} := by
    refine ⟨hd.sound, hd.owned, hd.visible, fun id ho hn => ?_⟩
    obtain rfl : id = o.tree := not_not.1 hn
    exact absurd (hd.sound.registry.lt_of_isOpen ho) (htree ▸ Nat.lt_irrefl _)
  have hdraws : (openOutline o.document (Node.outline o.document entries)).Ends s
      (fun _ t => t.Drawn {id | id ≠ o.tree}) Firm :=
    draws_openOutline hother o.document (fun node hnode => ⟨entries, hnode⟩)
      fun e he => by cases hmade.symm.trans he
  have hplants : (openOutline o.document (Node.outline o.document entries)).Ends s
      (fun id t => id = o.tree ∧ t.isOpen o.tree ∧ o.Spread 1 [] (t.tree o.tree) ∧
        t.pending = [] ∧ t.sent = o.sent) fun _ _ => False := by
    refine Session.ends_openOutline (fun e he => by cases hmade.symm.trans he) fun node hnode => ?_
    obtain rfl := Except.ok.inj (hmade.symm.trans hnode)
    have hspread := Outline.Spread.of_made hmade hu s.registry.nextHandle
    obtain ⟨view, hv⟩ := hspread.exists_ofTree s.style
    refine ends_plant hd.sound (.outline hmade) rfl fun t ht => ?_
    rw [← htree] at ht ⊢
    have hdrawn : View.ofTree (t.tree o.tree) t.style = .ok view := by
      rw [ht.tree, ht.style, hv]
    refine .bind ((ends_render_of_ofTree ht.isOpen hdrawn).mono ?_ fun _ _ he => he)
    rintro _ _ ⟨-, rfl⟩
    refine .pure ⟨rfl, (isOpen_shown _ _ _).trans ht.isOpen, ?_, ?_, ?_⟩
    · rw [tree_shown ht.isOpen (hd.sound.moves ht.moves), ht.tree]
      exact hspread.shown view
    · exact ht.pending.trans hp
    · rw [hsent, ← List.append_nil s.sent]
      exact ht.makes.sent
  refine (hplants.and hdraws).mono ?_ fun _ _ he => he.1
  rintro id t ⟨⟨hid, ho, hspread, hpending, hsent⟩, hdrawn⟩
  exact ⟨hid, hdrawn, ho, hspread, hpending, hsent⟩

end Unfolds

/-! ### What is printed -/

/-- What there is of an outline that is unfolded to a level. -/
structure Outlined (s : Session) (id : TreeId) (level : Int) (name : Text)
    (symbols : List (Int × Payload)) (buffer : Buffer) (view : View) : Prop where
  shows : s.Shows id buffer view
  /-- The first row is that of the document. After it come just the symbols down to the level, in
  their order, each as deep as its level. -/
  rows : view.map (fun row => (row.node.depth, row.node.payload)) =
    (0, documentPayload name) :: symbols.filter fun entry => entry.1 ≤ level
  /-- All symbols are in the tree, on display or not. -/
  nodes : (s.tree id).root.listing = (0, documentPayload name) :: symbols
  /-- Just the nodes above the level are expanded. -/
  expanded : ∀ node ∈ (s.tree id).root.walk, node.expanded ↔ node.depth < level

theorem Unfolds.outlined {o : Outline} {level : Nat} {name : Text} {symbols : List (Int × Payload)}
    (h : s.Unfolds o level []) (hlevel : 0 < level)
    (hlisting : o.root.listing = (0, documentPayload name) :: symbols) :
    ∃ buffer view, s.Outlined o.tree level name symbols buffer view := by
  obtain ⟨buffer, view, hshows⟩ := h.drawn.shows h.isOpen fun hn => hn rfl
  have hunfolded := h.spread.unfoldedTo
  have hnodes := h.spread.listing.trans hlisting
  refine ⟨buffer, view, hshows, ?_, hnodes, fun node hm => ?_⟩
  · have hrows := View.listing_of_ofTree h.spread.grown.counted hunfolded (Int.ofNat_lt.2 hlevel)
      hshows.depicts.drawn
    rw [hrows, hnodes]
    exact List.filter_cons_of_pos (decide_eq_true (Int.natCast_nonneg level))
  · obtain ⟨path, hpath⟩ := Node.exists_at?_of_mem_walk _ hm
    have hexpanded : node.expanded = decide (node.depth < level) := hunfolded path node hpath
    rw [hexpanded, decide_eq_true_eq]

/-- Buffers and trees belong together in whatever is played. -/
theorem drawn_play (client : Client) (settings : Settings) (root : Path) (now : Number)
    (turns : List Turn) : ((start client settings root now).play turns).Drawn Set.univ :=
  (play_induction (P := fun t => t.Drawn Set.univ) (sound_start ..)
    ((drawn_start ..).mono (Set.subset_univ _)) (fun _ _ _ h hm => h.move hm)
    (fun _ _ _ outcome h hr ho =>
      h.same (h.sound.arrived outcome hr ho) (.of_registry rfl rfl rfl))
    (fun _ now h => h.ticked now) turns).2

/-- All that stands for the symbols of a document has well-formed URIs if the document has one, and
the symbols with locations of their own. -/
theorem readable_listing {uri name : Text} {symbols : List Node.Entry}
    (document : ∃ parts, Uri.ofText uri = .ok parts)
    (locations : ∀ symbol, .flat symbol ∈ symbols →
      ∃ parts, Uri.ofText symbol.location.uri = .ok parts) :
    ∀ entry ∈ (0, documentPayload name) :: symbols.flatMap Node.Entry.listing,
      ∀ x ∈ (Node.leaf entry.2 entry.1 []).uris (some uri), ∃ parts, Uri.ofText x = .ok parts := by
  rintro ⟨depth, payload⟩ hm x hx
  have hcases : payload.isDocument ∨ ∃ symbol, .flat symbol ∈ symbols ∧
      payload = .located symbol none := by
    rcases List.mem_cons.1 hm with he | hm
    · obtain ⟨-, rfl⟩ := Prod.mk.inj he
      exact .inl rfl
    · obtain ⟨entry, hentry, hm⟩ := List.mem_flatMap.1 hm
      rcases Node.Entry.of_mem_listing hm with hdocument | ⟨symbol, rfl, hlocated⟩
      · exact .inl hdocument
      · exact .inr ⟨symbol, hentry, hlocated⟩
  rcases hcases with hdocument | ⟨symbol, hflat, rfl⟩
  · cases payload with
    | document symbol =>
      obtain rfl := List.mem_singleton.1 hx
      exact document
    | _ => cases hdocument
  · obtain rfl := List.mem_singleton.1 hx
    exact locations symbol hflat

/-- **An outline is printed down to the level that is asked for**, and nobody is asked for anything,
in every session in which no request is under way and whatever the clock shows. -/
theorem outlined_unfoldTo (clock : Clock) (client : Client) (settings : Settings) (root : Path) (now : Number)
    (turns : List Turn) (idle : ((start client settings root now).play turns).pending = [])
    {uri : Text} {entries symbols : List Node.Entry}
    (parsed : entries.mapM Node.Entry.parse = .ok symbols)
    (document : ∃ parts, Uri.ofText uri = .ok parts)
    (locations : ∀ symbol, .flat symbol ∈ symbols →
      ∃ parts, Uri.ofText symbol.location.uri = .ok parts)
    (level : Int) (positive : 1 ≤ level) :
    ∃ name id t u v buffer view, Uri.documentName uri = .ok name ∧
      openOutline uri (Node.outline uri entries) ((start client settings root now).play turns) =
        .ok id t ∧
      unfoldToBy clock id level t = .ok () u ∧ renderText id u = .ok view.printed v ∧
      u.Outlined id level name (symbols.flatMap Node.Entry.listing) buffer view ∧
      t.sent = ((start client settings root now).play turns).sent ∧
      u.sent = ((start client settings root now).play turns).sent ∧
      v.sent = ((start client settings root now).play turns).sent := by
  generalize hs : (start client settings root now).play turns = s at idle ⊢
  have hdrawn : s.Drawn Set.univ := hs ▸ drawn_play client settings root now turns
  obtain ⟨name, hname⟩ := Uri.exists_documentName document
  obtain ⟨made, hmade, hlisting, hcollapsed⟩ := Node.exists_outline hname parsed
  have hreadable : ∀ entry ∈ made.listing, ∀ x ∈ (Node.leaf entry.2 entry.1 []).uris (some uri),
      ∃ parts, Uri.ofText x = .ok parts := by
    rw [hlisting]
    exact readable_listing document locations
  let o : Outline := ⟨s.registry.trees.length, uri, made, s.sent, hreadable⟩
  have hopens : (openOutline uri (Node.outline uri entries)).Ends s
      (fun id t => id = o.tree ∧ t.Unfolds o 1 []) fun _ _ => False :=
    Unfolds.ends_openOutline (o := o) hdrawn idle rfl rfl hmade hcollapsed
  obtain ⟨id, t, hopen, rfl, ht⟩ := hopens.exists_ok
  obtain ⟨⟨⟩, u, hunfold, hu⟩ := (ht.ends_unfoldFrom clock Nat.one_pos (level - 1).toNat).exists_ok
  have hlevels : ((1 + (level - 1).toNat : Nat) : Int) = level := by omega
  obtain ⟨buffer, view, houtlined⟩ := hu.outlined (Nat.add_pos_left Nat.one_pos _) hlisting
  rw [hlevels] at houtlined
  have hprints := ends_renderText_of_ofTree hu.isOpen houtlined.shows.depicts.drawn
  obtain ⟨text, v, hrender, rfl, rfl⟩ := hprints.exists_ok
  exact ⟨name, o.tree, t, u, _, buffer, view, hname, hopen, hunfold, hrender, houtlined, ht.sent,
    hu.sent, hu.sent⟩

/-- A class with a method that has a local function, and a variable that comes with its location. -/
def shortDocument : List Node.Entry :=
  let symbol (name : Text) (inside : List DocumentSymbol) : DocumentSymbol :=
    ⟨name, none, default, default, none, inside⟩
  [.nested (symbol "C" [symbol "m" [symbol "f" []]]),
    .flat ⟨"v", none, ⟨"file:///ws/app.py", default⟩, none, none⟩]

/-- The local function is below the level. -/
theorem outlined_shortDocument :
    shortDocument.mapM Node.Entry.parse = .ok shortDocument ∧
    (∃ parts, Uri.ofText "file:///ws/app.py" = .ok parts) ∧
    (∀ symbol, .flat symbol ∈ shortDocument →
      ∃ parts, Uri.ofText symbol.location.uri = .ok parts) ∧
    ∃ id t u buffer view,
      openOutline "file:///ws/app.py" (Node.outline "file:///ws/app.py" shortDocument)
        (freshSession.play []) = .ok id t ∧
      unfoldTo id 2 t = .ok () u ∧
      u.Outlined id 2 "app.py" (shortDocument.flatMap Node.Entry.listing) buffer view ∧
      (view.map fun row => row.node.depth) = [0, 1, 2, 1] ∧
      (view.map fun row => row.node.name) = ["app.py", "C", "m", "v"] := by
  have hparsed : shortDocument.mapM Node.Entry.parse = .ok shortDocument := rfl
  have huri : ∃ parts, Uri.ofText "file:///ws/app.py" = .ok parts := ⟨_, rfl⟩
  have hlocations : ∀ symbol, .flat symbol ∈ shortDocument →
      ∃ parts, Uri.ofText symbol.location.uri = .ok parts := by
    intro symbol hm
    simp only [shortDocument, List.mem_cons, List.not_mem_nil, or_false] at hm
    rcases hm with hm | hm
    · cases hm
    · cases hm
      exact huri
  refine ⟨hparsed, huri, hlocations, ?_⟩
  obtain ⟨name, id, t, u, v, buffer, view, hname, hopen, hunfold, -, houtlined, -⟩ :=
    outlined_unfoldTo .still .server _ _ _ [] rfl hparsed huri hlocations 2 (by decide)
  obtain rfl : (Text.ofString "app.py") = name := by
    have hdocument : Uri.documentName "file:///ws/app.py" = .ok "app.py" := by rfl
    exact Except.ok.inj (hdocument.symm.trans hname)
  have hdepths := congrArg (List.map Prod.fst) houtlined.rows
  have hnames := congrArg (List.map fun entry => entry.2.name) houtlined.rows
  rw [List.map_map] at hdepths hnames
  exact ⟨id, t, u, buffer, view, hopen, hunfold, houtlined, hdepths, hnames⟩

end Session

end SymbolTrees
