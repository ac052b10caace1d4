import SymbolTrees.Proofs.Outline

/-!
# The symbols in the entries of an outline

The entries of an outline may be symbols that are read already, or objects as a server sent them.
An object of a nested list has further objects inside it, at any depth. Each of them is a symbol of
the document, and the outline has a node for each and no other.
-/

namespace SymbolTrees

/-- What is listed of a list that was read, if it is the same of every entry as it was and as it was
read. -/
theorem Except.flatMap_eq_of_mapM {ε α β γ : Type} {f : α → Except ε β} {g : α → List γ}
    {g' : β → List γ} {xs : List α} {ys : List β} (h : xs.mapM f = .ok ys)
    (same : ∀ x ∈ xs, ∀ y, f x = .ok y → g x = g' y) : xs.flatMap g = ys.flatMap g' := by
  induction xs generalizing ys with
  | nil =>
    obtain rfl := Except.ok.inj h
    rfl
  | cons x xs ih =>
    rw [List.mapM_cons] at h
    obtain ⟨y, hy, h⟩ := Except.of_bind h
    obtain ⟨rest, hrest, h⟩ := Except.of_bind h
    obtain rfl := Except.ok.inj h
    rw [List.flatMap_cons, List.flatMap_cons, same x List.mem_cons_self y hy,
      ih hrest fun x hx => same x (List.mem_cons_of_mem _ hx)]

namespace Json

/-- The entries of a list; what is no list has none. -/
def list : Json → List Json
  | arr entries => entries
  | _ => []

/-- The values inside an object: the entries of its field `children`. -/
def children : Json → List Json
  | obj fields =>
    match Table.get? fields "children" with
    | some v => v.list
    | none => []
  | _ => []

theorem sizeOf_lt_of_mem_list {v c : Json} (h : c ∈ v.list) : sizeOf c < sizeOf v := by
  cases v with
  | arr entries =>
    have below : sizeOf c < sizeOf entries := List.sizeOf_lt_of_mem h
    rw [arr.sizeOf_spec]
    omega
  | _ => cases h

theorem sizeOf_lt_of_get? {fields : Fields} {name : Text} {v : Json}
    (h : Table.get? fields name = some v) : sizeOf v < sizeOf (obj fields) := by
  obtain ⟨⟨key, value⟩, found, rfl⟩ := Option.map_eq_some_iff.1 h
  have inside := List.sizeOf_lt_of_mem (List.mem_of_find?_eq_some found)
  rw [Prod.mk.sizeOf_spec] at inside
  rw [obj.sizeOf_spec]
  dsimp only
  omega

theorem sizeOf_lt_of_mem_children {v c : Json} (h : c ∈ v.children) : sizeOf c < sizeOf v := by
  unfold children at h
  split at h
  next fields =>
    split at h
    next found => exact (sizeOf_lt_of_mem_list h).trans (sizeOf_lt_of_get? found)
    next => cases h
  next => cases h

/-- A value and all values inside it, each before those inside it, with their levels. -/
def nesting (level : Int) (v : Json) : List (Int × Json) :=
  (level, v) :: v.children.attach.flatMap fun c => c.1.nesting (level + 1)
termination_by sizeOf v
decreasing_by exact sizeOf_lt_of_mem_children c.2

theorem nesting_eq (level : Int) (v : Json) :
    v.nesting level = (level, v) :: v.children.flatMap (nesting (level + 1)) := by
  rw [nesting]
  conv_rhs => rw [← List.attach_map_subtype_val v.children, List.flatMap_map]

end Json

namespace DocumentSymbol

theorem listingAll_eq_flatMap (level : Int) (symbols : List DocumentSymbol) :
    listingAll level symbols = symbols.flatMap (listing level) := by
  induction symbols with
  | nil => rfl
  | cons symbol rest ih => rw [listingAll, ih, List.flatMap_cons]

theorem listing_eq (level : Int) (symbol : DocumentSymbol) :
    symbol.listing level =
      (level, .document symbol) :: symbol.children.flatMap (listing (level + 1)) := by
  cases symbol
  rw [listing, listingAll_eq_flatMap]

theorem ofList_eq_mapM (values : List Json) : ofList values = values.mapM ofJson := by
  induction values with
  | nil => rfl
  | cons v rest ih =>
    rw [ofList, ih, List.mapM_cons]

/-- The field that is read is the first of its name. -/
theorem ofChildren_eq (fields : Json.Fields) :
    ofChildren fields =
      match Table.get? fields "children" with
      | some v => ofEntries v
      | none => pure [] := by
  induction fields with
  | nil => rw [ofChildren, Table.get?_nil]
  | cons entry rest ih =>
    rw [ofChildren, Table.get?_cons]
    by_cases h : entry.1 = "children"
    · rw [if_pos h, if_pos h]
    · rw [if_neg h, if_neg h, ih]

/-- What counts as present is read entry by entry if it is read at all. -/
theorem mapM_of_ofEntries {v : Json} {symbols : List DocumentSymbol} (h : ofEntries v = .ok symbols) :
    v.list.mapM ofJson = .ok symbols := by
  cases v with
  | arr entries => rwa [ofEntries, ofList_eq_mapM] at h
  | null => exact h
  | num n | bool b | str s =>
    rw [ofEntries] at h
    split at h
    · first | exact h | cases h
    · first | exact h | cases h
  | obj fields =>
    cases fields with
    | nil => exact h
    | cons entry rest => cases h

/-- What is inside an object is read symbol by symbol. -/
theorem mapM_children_of_ofJson {v : Json} {symbol : DocumentSymbol} (h : ofJson v = .ok symbol) :
    v.children.mapM ofJson = .ok symbol.children := by
  cases v with
  | obj fields =>
    rw [ofJson] at h
    obtain ⟨range, -, h⟩ := Except.of_bind h
    obtain ⟨selection, -, h⟩ := Except.of_bind h
    obtain ⟨name, -, h⟩ := Except.of_bind h
    obtain ⟨kind, -, h⟩ := Except.of_bind h
    obtain ⟨detail, -, h⟩ := Except.of_bind h
    obtain ⟨children, hchildren, h⟩ := Except.of_bind h
    obtain rfl := Except.ok.inj h
    rw [ofChildren_eq] at hchildren
    cases found : Table.get? fields "children" with
    | none =>
      rw [found] at hchildren
      rw [Json.children, found]
      exact hchildren
    | some v =>
      rw [found] at hchildren
      rw [Json.children, found]
      exact mapM_of_ofEntries hchildren
  | _ => cases h

/-- **The symbol that an object is read as** has the symbols inside the object inside it, at the
same levels. -/
theorem nesting_of_ofJson {v : Json} (level : Int) {symbol : DocumentSymbol} (h : ofJson v = .ok symbol) :
    (v.nesting level).map (fun inner => (inner.1, Payload.document <$> ofJson inner.2)) =
      (symbol.listing level).map fun entry => (entry.1, .ok entry.2) := by
  induction level, v using Json.nesting.induct generalizing symbol with
  | case1 level v ih =>
    rw [Json.nesting_eq, listing_eq, List.map_cons, List.map_cons, h, List.map_flatMap,
      List.map_flatMap]
    refine congrArg (_ :: ·) (Except.flatMap_eq_of_mapM (mapM_children_of_ofJson h) ?_)
    intro c hc child hchild
    exact ih ⟨c, hc⟩ hchild

end DocumentSymbol

namespace Node

variable {uri : Text} {entries parsed before after : List Entry} {root : Node}

namespace Entry

/-- The symbols of an entry with their levels, those of an object as it is read. -/
def symbols : Entry → List (Int × Except Malformed Payload)
  | nested symbol => (symbol.listing 1).map fun entry => (entry.1, .ok entry.2)
  | flat symbol => [(1, .ok (.located symbol none))]
  | raw value =>
    if DocumentSymbol.isNested value then
      (value.nesting 1).map fun inner =>
        (inner.1, Payload.document <$> DocumentSymbol.ofJson inner.2)
    else [(1, (Payload.located · none) <$> LocatedSymbol.ofJson value)]

/-- An entry has the symbols of what it is read as. -/
theorem symbols_of_parse {entry parsed : Entry} (h : entry.parse = .ok parsed) :
    entry.symbols = parsed.listing.map fun entry => (entry.1, .ok entry.2) := by
  cases entry with
  | nested symbol | flat symbol =>
    obtain rfl := Except.ok.inj h
    rfl
  | raw value =>
    rw [parse] at h
    split at h
    next =>
      have hread := Except.of_mapError h
      rw [symbols]
      unfold read at hread
      split at hread
      next isNested =>
        obtain ⟨symbol, hsymbol, he⟩ := Except.of_bind hread
        obtain rfl := Except.ok.inj he
        rw [if_pos isNested]
        exact DocumentSymbol.nesting_of_ofJson 1 hsymbol
      next isFlat =>
        obtain ⟨symbol, hsymbol, he⟩ := Except.of_bind hread
        obtain rfl := Except.ok.inj he
        rw [if_neg isFlat, hsymbol]
        rfl
    next => cases h

/-- The node of an entry is that of what it is read as. -/
theorem node_eq (entry : Entry) : entry.node = entry.parse >>= node := by
  cases entry with
  | nested symbol | flat symbol => rfl
  | raw value =>
    rw [node, parse]
    unfold read
    by_cases isNested : DocumentSymbol.isNested value
    · have isObject : value.isObject := by
        cases value with
        | obj fields => rfl
        | _ => cases isNested
      rw [if_pos isNested, if_pos isObject, if_pos isNested]
      cases DocumentSymbol.ofJson value <;> rfl
    · rw [if_neg isNested, if_neg isNested]
      split
      · cases LocatedSymbol.ofJson value <;> rfl
      · rfl

end Entry

/-- Entries have nodes only if all of them can be read. -/
theorem exists_mapM_parse {nodes : List Node} (h : entries.mapM Entry.node = .ok nodes) :
    ∃ parsed, entries.mapM Entry.parse = .ok parsed := by
  induction entries generalizing nodes with
  | nil => exact ⟨[], rfl⟩
  | cons entry rest ih =>
    rw [List.mapM_cons] at h
    obtain ⟨n, hn, h⟩ := Except.of_bind h
    obtain ⟨others, hothers, -⟩ := Except.of_bind h
    rw [Entry.node_eq] at hn
    obtain ⟨first, hfirst, -⟩ := Except.of_bind hn
    obtain ⟨later, hlater⟩ := ih hothers
    refine ⟨first :: later, ?_⟩
    rw [List.mapM_cons, hfirst, hlater]
    rfl

theorem mapM_node_of_mapM_parse (h : entries.mapM Entry.parse = .ok parsed) :
    parsed.mapM Entry.node = entries.mapM Entry.node ∧ ∀ entry ∈ parsed, ∀ v, entry ≠ .raw v := by
  induction entries generalizing parsed with
  | nil =>
    obtain rfl := Except.ok.inj h
    exact ⟨rfl, nofun⟩
  | cons entry rest ih =>
    rw [List.mapM_cons] at h
    obtain ⟨first, hfirst, h⟩ := Except.of_bind h
    obtain ⟨later, hlater, h⟩ := Except.of_bind h
    obtain rfl := Except.ok.inj h
    obtain ⟨hnode, hread⟩ := node_of_parse hfirst
    obtain ⟨hnodes, hreads⟩ := ih hlater
    refine ⟨?_, List.forall_mem_cons.2 ⟨hread, hreads⟩⟩
    rw [List.mapM_cons, List.mapM_cons, hnode, hnodes]

/-- What an outline is made of: the document itself, and the nodes of the entries. -/
theorem outline_eq_ok (h : outline uri entries = .ok root) :
    root.expanded = true ∧ root.depth = 0 ∧ entries.mapM Entry.node = .ok root.children := by
  obtain ⟨document, hdocument, h⟩ := Except.of_bind h
  obtain ⟨nodes, hnodes, h⟩ := Except.of_bind h
  obtain rfl := Except.ok.inj h
  obtain ⟨name, -, hdocument⟩ := Except.of_bind (Except.of_mapError hdocument)
  obtain rfl := Except.ok.inj hdocument
  exact ⟨rfl, rfl, hnodes⟩

/-- Entries that can be read have the outline of what they are read as. -/
theorem exists_outline_of_parsed (huri : ∃ parts, Uri.ofText uri = .ok parts)
    (h : entries.mapM Entry.parse = .ok parsed) :
    ∃ root, outline uri entries = .ok root ∧ outline uri parsed = .ok root := by
  obtain ⟨name, hname⟩ := Uri.exists_documentName huri
  obtain ⟨root, hroot, -⟩ := exists_outline hname h
  refine ⟨root, hroot, ?_⟩
  rw [← hroot, outline, outline, (mapM_node_of_mapM_parse h).1]

/-- What comes before a value that is no object is made into nodes, and then the value is refused. -/
theorem mapM_node_of_not_isObject {value : Json} (hvalue : value.isObject = false)
    (hbefore : before.mapM Entry.parse = .ok parsed) :
    (before ++ .raw value :: after).mapM Entry.node = .error (.noSymbol value) := by
  have fails : (Entry.raw value).node = .error (.noSymbol value) := by
    rw [Entry.node_eq, Entry.parse, hvalue]
    rfl
  obtain ⟨nodes, hnodes, -⟩ := exists_nodes hbefore
  rw [List.mapM_append, hnodes, List.mapM_cons, fails]
  rfl

/-- **What is refused** as an entry of an outline is told. -/
theorem outline_of_not_isObject {value : Json} (huri : ∃ parts, Uri.ofText uri = .ok parts)
    (hvalue : value.isObject = false) (hbefore : before.mapM Entry.parse = .ok parsed) :
    outline uri (before ++ .raw value :: after) = .error (.noSymbol value) := by
  obtain ⟨name, hname⟩ := Uri.exists_documentName huri
  rw [outline, documentRoot, hname, mapM_node_of_not_isObject hvalue hbefore]
  rfl

/-! ### The nodes of an outline -/

/-- What a node of an outline is like below the root: not opened, with no item whose calls could be
asked for, and with nothing under way. -/
structure Dormant (m : Node) : Prop where
  collapsed : m.expanded = false
  item : m.payload.callItem? = none
  idle : m.pending = none

theorem exists_at?_of_mem_walkAll_children {n m : Node} (h : m ∈ walkAll n.children) :
    ∃ i path, n.at? (i :: path) = some m := by
  obtain ⟨i, c, path, hc, hm⟩ := exists_at?_of_mem_walkAll n.children h
  refine ⟨i, path, ?_⟩
  rw [at?_cons, hc]
  exact hm

/-- **The nodes of an outline** are those of the symbols in its entries, in their order and at their
levels. -/
theorem symbols_of_outline (h : outline uri entries = .ok root) :
    (walkAll root.children).map (fun m => (m.depth, .ok m.payload)) =
      entries.flatMap Entry.symbols := by
  obtain ⟨-, -, hnodes⟩ := outline_eq_ok h
  obtain ⟨parsed, hparsed⟩ := exists_mapM_parse hnodes
  obtain ⟨nodes, hnodes', hlisting, -⟩ := exists_nodes hparsed
  obtain rfl : root.children = nodes := Except.ok.inj (hnodes.symm.trans hnodes')
  rw [Except.flatMap_eq_of_mapM hparsed fun entry _ parsed => Entry.symbols_of_parse,
    ← List.map_flatMap, ← hlisting, walkAll_eq_flatMap, List.map_flatMap, List.map_flatMap]
  simp only [listing, List.map_map]
  rfl

/-- **Below its root** an outline is dormant. -/
theorem dormant_of_outline (h : outline uri entries = .ok root) :
    ∀ m ∈ walkAll root.children, m.Dormant := by
  intro m hm
  obtain ⟨-, -, hnodes⟩ := outline_eq_ok h
  obtain ⟨parsed, hparsed⟩ := exists_mapM_parse hnodes
  obtain ⟨nodes, hnodes', -, hcollapsed⟩ := exists_nodes hparsed
  obtain rfl : root.children = nodes := Except.ok.inj (hnodes.symm.trans hnodes')
  obtain ⟨i, path, hat⟩ := exists_at?_of_mem_walkAll_children hm
  have hfits : m.Fits .outline := (all_fits_outline h).2 (i :: path) m hat
  have hitem : m.payload.callItem?.isSome = false := hfits.item
  rw [at?_cons] at hat
  obtain ⟨c, hc, hm⟩ := Option.bind_eq_some_iff.1 hat
  refine ⟨hcollapsed c (List.mem_of_getElem? hc) path m hm,
    Option.isNone_iff_eq_none.1 (Option.isSome_eq_false_iff.1 hitem), ?_⟩
  by_contra waits
  exact absurd (hfits.waiting waits).1 Bool.false_ne_true

/-- **Outlines lose nothing.** An outline has its document at the root, expanded, and below it a
node for every symbol in its entries: in their order, with the symbol as it is read, as deep as the
symbol is nested, and dormant. There is one if all entries can be read, and it is the outline of what
they are read as. An entry that is neither an object nor a symbol is refused, if all entries before
it can be read. -/
theorem outline_faithful (huri : ∃ parts, Uri.ofText uri = .ok parts) :
    (∀ root, outline uri entries = .ok root →
      root.expanded = true ∧ root.depth = 0 ∧
      (walkAll root.children).map (fun m => (m.depth, .ok m.payload)) =
        entries.flatMap Entry.symbols ∧
      (∀ m ∈ walkAll root.children, m.Dormant) ∧
      ∃ parsed, entries.mapM Entry.parse = .ok parsed) ∧
    (∀ parsed, entries.mapM Entry.parse = .ok parsed →
      (∀ entry ∈ parsed, ∀ v, entry ≠ .raw v) ∧
      ∃ root, outline uri entries = .ok root ∧ outline uri parsed = .ok root) ∧
    ∀ before after value, entries = before ++ .raw value :: after → value.isObject = false →
      (∃ parsed, before.mapM Entry.parse = .ok parsed) →
      outline uri entries = .error (.noSymbol value) := by
  refine ⟨fun root h => ?_, fun parsed h => ?_, ?_⟩
  · obtain ⟨expanded, depth, hnodes⟩ := outline_eq_ok h
    exact ⟨expanded, depth, symbols_of_outline h, dormant_of_outline h, exists_mapM_parse hnodes⟩
  · exact ⟨(mapM_node_of_mapM_parse h).2, exists_outline_of_parsed huri h⟩
  · rintro before after value rfl hvalue ⟨parsed, hbefore⟩
    exact outline_of_not_isObject huri hvalue hbefore

/-- A class with a method inside it, as an object of a nested list. -/
def nestedObject : Json :=
  .obj [("name", .str "App"), ("range", .obj []),
    ("children", .arr [.obj [("name", .str "run"), ("location", .null)]])]

/-- Entries of all kinds. -/
def mixedEntries : List Entry :=
  [.raw nestedObject, .raw (.obj [("name", .str "main")]),
    .nested ⟨"Log", none, origin, origin, none, [⟨"write", none, origin, origin, none, []⟩]⟩,
    .flat ⟨"start", none, ⟨"file:///a.py", origin⟩, none, none⟩]

theorem outline_faithful_mixedEntries :
    ∃ root, outline "file:///a.py" mixedEntries = .ok root ∧
      (walkAll root.children).map (fun m => (m.depth, .ok m.payload)) =
        mixedEntries.flatMap Entry.symbols ∧
      (mixedEntries.flatMap Entry.symbols).map Prod.fst = [1, 2, 1, 1, 2, 1] ∧
      outline "file:///a.py" (mixedEntries ++ [.raw .null, .raw nestedObject]) =
        .error (.noSymbol .null) := by
  have huri : ∃ parts, Uri.ofText "file:///a.py" = .ok parts := ⟨_, rfl⟩
  have hparsed : ∃ parsed, mixedEntries.mapM Entry.parse = .ok parsed := ⟨_, rfl⟩
  obtain ⟨parsed, h⟩ := hparsed
  obtain ⟨root, hroot, -⟩ := ((outline_faithful huri).2.1 parsed h).2
  obtain ⟨-, -, hsymbols, -⟩ := (outline_faithful huri).1 root hroot
  refine ⟨root, hroot, hsymbols, ?_, ?_⟩
  · decide +kernel
  · exact (outline_faithful huri).2.2 mixedEntries [.raw nestedObject] .null rfl rfl ⟨parsed, h⟩

end Node

end SymbolTrees
