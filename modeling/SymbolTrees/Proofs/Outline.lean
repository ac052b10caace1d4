import SymbolTrees.Proofs.Rendering

/-!
# The levels of an outline

The symbols of a document are nested: each has a level, one more than that of the symbol around it.
The outline of the document has a node for every symbol, with the level for its depth, in the order
in which the symbols come. Where just the nodes above a level are expanded, the rows of the outline
are those of the symbols down to this level.
-/

namespace SymbolTrees

/-- A document with a well-formed URI has a name. -/
theorem Uri.exists_documentName {uri : Text} (h : ∃ parts, ofText uri = .ok parts) :
    ∃ name, documentName uri = .ok name := by
  obtain ⟨parts, hparts⟩ := h
  unfold documentName filePath?
  rw [hparts]
  dsimp only [bind, Except.bind, pure, Except.pure]
  split <;> exact ⟨_, rfl⟩

/-! ### The symbols of a document -/

mutual

/-- A symbol and all symbols inside it, each before those inside it, with their levels. -/
def DocumentSymbol.listing (level : Int) : DocumentSymbol → List (Int × Payload)
  | ⟨name, kind, range, selection, detail, children⟩ =>
    (level, .document ⟨name, kind, range, selection, detail, children⟩) ::
      DocumentSymbol.listingAll (level + 1) children

def DocumentSymbol.listingAll (level : Int) : List DocumentSymbol → List (Int × Payload)
  | [] => []
  | symbol :: rest => symbol.listing level ++ DocumentSymbol.listingAll level rest

end

mutual

theorem DocumentSymbol.isDocument_of_mem_listing {level : Int} {entry : Int × Payload} :
    (symbol : DocumentSymbol) → entry ∈ symbol.listing level → entry.2.isDocument
  | ⟨name, kind, range, selection, detail, children⟩, h => by
    rw [DocumentSymbol.listing, List.mem_cons] at h
    rcases h with rfl | h
    · rfl
    · exact DocumentSymbol.isDocument_of_mem_listingAll children h

theorem DocumentSymbol.isDocument_of_mem_listingAll {level : Int} {entry : Int × Payload} :
    (symbols : List DocumentSymbol) → entry ∈ DocumentSymbol.listingAll level symbols →
      entry.2.isDocument
  | [], h => by cases h
  | symbol :: rest, h => by
    rw [DocumentSymbol.listingAll, List.mem_append] at h
    rcases h with h | h
    · exact DocumentSymbol.isDocument_of_mem_listing symbol h
    · exact DocumentSymbol.isDocument_of_mem_listingAll rest h

end

namespace Node

namespace Entry

/-- The entry, read if it is as the server sent it. -/
def parse : Entry → Except Fault Entry
  | raw value => do
    if value.isObject then (read value : Except Malformed Entry)
    else throw (.noSymbol value)
  | entry => pure entry

/-- The symbols of an entry, those at the top at level one. -/
def listing : Entry → List (Int × Payload)
  | nested symbol => symbol.listing 1
  | flat symbol => [(1, .located symbol none)]
  | raw _ => []

/-- Only the symbols of a flat list have locations of their own. -/
theorem of_mem_listing {entry : Entry} {level : Int} {payload : Payload}
    (h : (level, payload) ∈ entry.listing) :
    payload.isDocument ∨ ∃ symbol, entry = flat symbol ∧ payload = .located symbol none := by
  cases entry with
  | nested symbol => exact .inl (DocumentSymbol.isDocument_of_mem_listing symbol h)
  | flat symbol =>
    obtain ⟨-, rfl⟩ := Prod.mk.inj (List.mem_singleton.1 h)
    exact .inr ⟨symbol, rfl, rfl⟩
  | raw value => cases h

end Entry

/-- What the nodes of a tree stand for, with their depths, each before those below it. -/
def listing (n : Node) : List (Int × Payload) := n.walk.map fun m => (m.depth, m.payload)

variable {n m : Node} {path : List Nat} {f : Node → Node}

/-! ### The nodes of a tree in their order -/

theorem with_depth {depth : Int} (h : n.depth = depth) : { n with depth := depth } = n := by
  cases n
  cases h
  rfl

theorem walk_eq (n : Node) : n.walk = n :: walkAll n.children := by
  cases n
  rfl

theorem walkAll_eq_flatMap (nodes : List Node) : walkAll nodes = nodes.flatMap walk := by
  induction nodes with
  | nil => rfl
  | cons node rest ih => rw [walkAll, ih, List.flatMap_cons]

/-- What stands on a path comes in the order of the nodes. -/
theorem mem_walk_of_at? (h : n.at? path = some m) : m ∈ n.walk := by
  induction path generalizing n with
  | nil =>
    obtain rfl := Option.some.inj h
    rw [walk_eq]
    exact List.mem_cons_self
  | cons i path ih =>
    rw [at?_cons] at h
    obtain ⟨c, hc, h⟩ := Option.bind_eq_some_iff.1 h
    rw [walk_eq, walkAll_eq_flatMap]
    exact List.mem_cons_of_mem _ (List.mem_flatMap.2 ⟨c, List.mem_of_getElem? hc, ih h⟩)

mutual

/-- What comes in the order of the nodes stands on a path. -/
theorem exists_at?_of_mem_walk : (n : Node) → m ∈ n.walk → ∃ path, n.at? path = some m
  | ⟨payload, depth, expanded, pending, callRanges, children⟩, h => by
    rw [walk, List.mem_cons] at h
    rcases h with rfl | h
    · exact ⟨[], rfl⟩
    · obtain ⟨i, c, path, hc, hm⟩ := exists_at?_of_mem_walkAll children h
      refine ⟨i :: path, ?_⟩
      rw [at?_cons, hc]
      exact hm

theorem exists_at?_of_mem_walkAll : (nodes : List Node) → m ∈ walkAll nodes →
    ∃ (i : Nat) (c : Node) (path : List Nat), nodes[i]? = some c ∧ c.at? path = some m
  | [], h => by cases h
  | node :: rest, h => by
    rw [walkAll, List.mem_append] at h
    rcases h with h | h
    · obtain ⟨path, hm⟩ := exists_at?_of_mem_walk node h
      exact ⟨0, node, path, rfl, hm⟩
    · obtain ⟨i, c, path, hc, hm⟩ := exists_at?_of_mem_walkAll rest h
      exact ⟨i + 1, c, path, hc, hm⟩

end

theorem listing_eq (n : Node) :
    n.listing = (n.depth, n.payload) :: n.children.flatMap listing := by
  rw [listing, walk_eq, List.map_cons, walkAll_eq_flatMap, List.map_flatMap]
  rfl

theorem mem_listing_of_at? (h : n.at? path = some m) : (m.depth, m.payload) ∈ n.listing :=
  List.mem_map_of_mem (mem_walk_of_at? h)

/-- A change after which a node stands for the same as before, with all below it, is not seen in
the listing of its tree. -/
theorem listing_modifyAt (hf : ∀ m, (f m).listing = m.listing) :
    (modifyAt f path n).listing = n.listing := by
  induction path generalizing n with
  | nil => exact hf n
  | cons i path ih =>
    have hc : (n.children.modify i (modifyAt f path)).map listing = n.children.map listing := by
      refine List.ext_getElem? fun j => ?_
      rw [List.getElem?_map, List.getElem?_modify, List.getElem?_map]
      cases n.children[j]? with
      | none => simp
      | some c =>
        by_cases hj : i = j
        · simp [hj, ih]
        · simp [hj]
    rw [listing_eq, listing_eq n, List.flatMap_def, List.flatMap_def]
    exact congrArg (fun below => _ :: List.flatten below) hc

/-! ### Rows down to a level -/

/-- Just the nodes above the level are expanded. -/
def UnfoldedTo (level : Int) (n : Node) : Prop :=
  n.All fun m => m.expanded = decide (m.depth < level)

/-- The depths count the steps from the node. -/
def Stepped (n : Node) : Prop := n.All fun m => ∀ c ∈ m.children, c.depth = m.depth + 1

/-- Nothing in a tree lies above its root. -/
theorem Stepped.le_of_mem_walk (h : n.Stepped) (hm : m ∈ n.walk) : n.depth ≤ m.depth := by
  obtain ⟨path, hpath⟩ := exists_at?_of_mem_walk n hm
  rw [depth_at?_of_steps h hpath]
  exact Int.le_add_of_nonneg_right (Int.natCast_nonneg _)

mutual

/-- **What is on display of a tree that is unfolded to a level** are its nodes down to the level. -/
theorem nodes_visible {level : Int} (hlevel : 0 < level) (base : List Nat) :
    (n : Node) → n.Stepped → n.UnfoldedTo level → n.depth ≤ level →
      (n.visible base).map Prod.snd = n.walk.filter fun m => m.depth ≤ level
  | ⟨payload, depth, expanded, pending, callRanges, children⟩, hs, hu, hd => by
    have hexpanded : expanded = decide (depth < level) := hu.root
    have hsteps : ∀ c ∈ children, c.depth = depth + 1 := hs.root
    rw [visible, List.map_cons, walk,
      List.filter_cons_of_pos (p := fun m : Node => m.depth ≤ level) (decide_eq_true hd)]
    refine congrArg (_ :: ·) ?_
    rcases Int.lt_or_eq_of_le hd with hlt | heq
    · rw [hexpanded, decide_eq_true hlt, if_pos (Bool.true_or _)]
      refine nodes_visibleAll hlevel base 0 children fun c hc => ?_
      exact ⟨(all_iff.1 hs).2 c hc, (all_iff.1 hu).2 c hc, hsteps c hc ▸ hlt⟩
    · -- Below the level all nodes are deeper than it, and none of them is on display.
      have hlast : depth = level := heq
      have hzero : (depth == 0) = false := beq_eq_false_iff_ne.2 (by omega)
      rw [hexpanded, hzero, decide_eq_false (by omega), if_neg (by simp), List.map_nil]
      refine (List.filter_eq_nil_iff.2 fun m hm => ?_).symm
      rw [walkAll_eq_flatMap, List.mem_flatMap] at hm
      obtain ⟨c, hc, hm⟩ := hm
      have hbelow : c.depth ≤ m.depth := Stepped.le_of_mem_walk ((all_iff.1 hs).2 c hc) hm
      have hdeeper := hsteps c hc
      simp only [decide_eq_true_eq]
      omega

theorem nodes_visibleAll {level : Int} (hlevel : 0 < level) (base : List Nat) (i : Nat) :
    (nodes : List Node) → (∀ c ∈ nodes, c.Stepped ∧ c.UnfoldedTo level ∧ c.depth ≤ level) →
      (visibleAll base i nodes).map Prod.snd = (walkAll nodes).filter fun m => m.depth ≤ level
  | [], _ => rfl
  | node :: rest, h => by
    obtain ⟨⟨hs, hu, hd⟩, hrest⟩ := List.forall_mem_cons.1 h
    rw [visibleAll, List.map_append, nodes_visible hlevel _ node hs hu hd,
      nodes_visibleAll hlevel base (i + 1) rest hrest, walkAll, List.filter_append]

end

/-! ### Outlines -/

mutual

theorem listing_ofSymbol (level : Int) :
    (symbol : DocumentSymbol) → (ofSymbol level symbol).listing = symbol.listing level
  | ⟨name, kind, range, selection, detail, children⟩ => by
    rw [listing_eq, DocumentSymbol.listing, ← listing_ofSymbols (level + 1) children]
    rfl

theorem listing_ofSymbols (level : Int) : (symbols : List DocumentSymbol) →
    (ofSymbols level symbols).flatMap listing = DocumentSymbol.listingAll level symbols
  | [] => rfl
  | symbol :: rest => by
    rw [ofSymbols, List.flatMap_cons, listing_ofSymbol, listing_ofSymbols,
      DocumentSymbol.listingAll]

end

mutual

theorem all_collapsed_ofSymbol (level : Int) :
    (symbol : DocumentSymbol) → (ofSymbol level symbol).All (·.expanded = false)
  | ⟨_, _, _, _, _, children⟩ => all_iff.2 ⟨rfl, all_collapsed_ofSymbols (level + 1) children⟩

theorem all_collapsed_ofSymbols (level : Int) : (symbols : List DocumentSymbol) →
    ∀ c ∈ ofSymbols level symbols, c.All (·.expanded = false)
  | [] => nofun
  | symbol :: rest => List.forall_mem_cons.2
    ⟨all_collapsed_ofSymbol level symbol, all_collapsed_ofSymbols level rest⟩

end

/-- An entry that can be read has the node of what is read. -/
theorem node_of_parse {entry parsed : Entry} (h : entry.parse = .ok parsed) :
    entry.node = parsed.node ∧ ∀ value, parsed ≠ .raw value := by
  cases entry with
  | nested symbol =>
    obtain rfl := Except.ok.inj h
    exact ⟨rfl, nofun⟩
  | flat symbol =>
    obtain rfl := Except.ok.inj h
    exact ⟨rfl, nofun⟩
  | raw value =>
    rw [Entry.parse] at h
    split at h
    · rename_i hobject
      have hread := Except.of_mapError h
      unfold Entry.read at hread
      split at hread
      · rename_i hnested
        obtain ⟨symbol, hsymbol, he⟩ := Except.of_bind hread
        obtain rfl := Except.ok.inj he
        refine ⟨?_, nofun⟩
        change (Entry.raw value).node = .ok (ofSymbol 1 symbol)
        rw [Entry.node, if_pos hnested, hsymbol]
        rfl
      · rename_i hflat
        obtain ⟨symbol, hsymbol, he⟩ := Except.of_bind hread
        obtain rfl := Except.ok.inj he
        refine ⟨?_, nofun⟩
        change (Entry.raw value).node = .ok (leaf (.located symbol none) 1 [])
        rw [Entry.node, if_neg hflat, if_pos hobject, hsymbol]
        rfl
    · cases h

/-- The node of an entry lists its symbols, and nothing in it is expanded. -/
theorem exists_node {entry parsed : Entry} (h : entry.parse = .ok parsed) :
    ∃ n, entry.node = .ok n ∧ n.listing = parsed.listing ∧ n.All (·.expanded = false) := by
  obtain ⟨hnode, hread⟩ := node_of_parse h
  rw [hnode]
  cases parsed with
  | nested symbol => exact ⟨_, rfl, listing_ofSymbol 1 symbol, all_collapsed_ofSymbol 1 symbol⟩
  | flat symbol => exact ⟨_, rfl, rfl, all_leaf rfl rfl⟩
  | raw value => exact absurd rfl (hread value)

theorem exists_nodes {entries symbols : List Entry} (h : entries.mapM Entry.parse = .ok symbols) :
    ∃ nodes, entries.mapM Entry.node = .ok nodes ∧
      nodes.flatMap listing = symbols.flatMap Entry.listing ∧
      ∀ c ∈ nodes, c.All (·.expanded = false) := by
  induction entries generalizing symbols with
  | nil =>
    obtain rfl := Except.ok.inj h
    exact ⟨[], rfl, rfl, nofun⟩
  | cons entry rest ih =>
    rw [List.mapM_cons] at h
    obtain ⟨parsed, hparsed, h⟩ := Except.of_bind h
    obtain ⟨others, hothers, h⟩ := Except.of_bind h
    obtain rfl := Except.ok.inj h
    obtain ⟨n, hn, hlisting, hcollapsed⟩ := exists_node hparsed
    obtain ⟨nodes, hnodes, hlistings, hall⟩ := ih hothers
    refine ⟨n :: nodes, ?_, ?_, List.forall_mem_cons.2 ⟨hcollapsed, hall⟩⟩
    · rw [List.mapM_cons, hn, hnodes]
      rfl
    · rw [List.flatMap_cons, List.flatMap_cons, hlisting, hlistings]

/-- What stands for a document in its outline. -/
def documentPayload (name : Text) : Payload :=
  .document ⟨name, some .file, origin, origin, none, []⟩

/-- **The outline of a document** lists its symbols below the document itself, and only the root is
expanded. -/
theorem exists_outline {uri name : Text} {entries symbols : List Entry}
    (hname : Uri.documentName uri = .ok name) (h : entries.mapM Entry.parse = .ok symbols) :
    ∃ root, outline uri entries = .ok root ∧
      root.listing = (0, documentPayload name) :: symbols.flatMap Entry.listing ∧
      root.UnfoldedTo 1 := by
  obtain ⟨nodes, hnodes, hlisting, hcollapsed⟩ := exists_nodes h
  have hmade : outline uri entries =
      .ok ⟨documentPayload name, 0, true, none, [], nodes⟩ := by
    unfold outline documentRoot
    rw [hname, hnodes]
    rfl
  have hsteps := (all_fits_outline hmade).2
  refine ⟨_, hmade, ?_, fun path m hm => ?_⟩
  · rw [listing_eq, ← hlisting]
  · have hdepth := depth_at? hsteps hm
    dsimp only
    rw [hdepth]
    cases path with
    | nil =>
      obtain rfl := Option.some.inj hm
      rfl
    | cons i path =>
      rw [at?_cons] at hm
      obtain ⟨c, hc, hm⟩ := Option.bind_eq_some_iff.1 hm
      rw [hcollapsed c (List.mem_of_getElem? hc) path m hm, List.length_cons]
      exact (decide_eq_false (by dsimp only; omega)).symm

end Node

/-! ### Rows -/

namespace View

variable {t : Tree} {style : Style} {view : View}

theorem nodes_of_ofTree (hv : ofTree t style = .ok view) :
    view.map Row.node = (t.root.visible []).map Prod.snd := by
  have hrows := Except.of_mapM hv
  generalize t.root.visible [] = nodes at hrows
  clear hv
  induction hrows with
  | nil => rfl
  | cons hrow _ ih => rw [List.map_cons, List.map_cons, ih, (text_of_row hrow).2.1]

/-- **The rows of a tree that is unfolded to a level** are its listing down to the level. -/
theorem listing_of_ofTree {level : Int} (hc : t.root.Counted) (hu : t.root.UnfoldedTo level)
    (hlevel : 0 < level) (hv : ofTree t style = .ok view) :
    view.map (fun row => (row.node.depth, row.node.payload)) =
      t.root.listing.filter fun entry => entry.1 ≤ level := by
  have hvisible := Node.nodes_visible hlevel [] t.root hc.below hu
    (hc.first ▸ Int.le_of_lt hlevel)
  rw [← nodes_of_ofTree hv] at hvisible
  have hfaces := congrArg (List.map fun m : Node => (m.depth, m.payload)) hvisible
  rw [List.map_map] at hfaces
  rw [Node.listing, List.filter_map]
  exact hfaces

end View

end SymbolTrees
