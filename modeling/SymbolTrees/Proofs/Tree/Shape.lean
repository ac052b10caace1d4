import SymbolTrees.Proofs.Action
import SymbolTrees.Proofs.Tree.Places
import SymbolTrees.Tree.Outline

/-!
# The shape of trees

What the nodes of a tree are like, and that all roots that trees start from are like that. In a
tree of calls every node stands for an item, and only nodes without children wait; in an outline no
node stands for an item and none waits.
-/

namespace SymbolTrees

theorem Direction.eq_of_calls? {d : Direction} {c : CallDirection} (h : d.calls? = some c) :
    d = .calls c := by
  cases d with
  | calls d => exact congrArg _ (Option.some.inj h)
  | outline => cases h
  | unknown => cases h

namespace Node

/-- What a node of a tree with a direction is like. -/
structure Fits (d : Direction) (n : Node) : Prop where
  depths : ∀ c ∈ n.children, c.depth = n.depth + 1
  item : n.payload.callItem?.isSome = d.calls?.isSome
  opened : d.calls?.isSome → n.expanded → n.children ≠ []
  waiting : n.pending ≠ none → d.calls?.isSome ∧ n.children = [] ∧ n.expanded = false

variable {d : Direction} {n : Node}

theorem isNear_fits : IsNear (Fits d) := by
  intro a b hr ha
  have hp : b.payload = a.payload := payload_of_mark hr.mark
  refine ⟨?_, hp ▸ ha.item, ?_, ?_⟩
  · intro c hc
    have hm : c.mark ∈ a.children.map mark := hr.children ▸ List.mem_map_of_mem hc
    obtain ⟨c', hc', he⟩ := List.mem_map.1 hm
    rw [depth_of_mark he.symm, ha.depths c' hc', depth_of_mark hr.mark]
  · intro hd he
    rw [Ne, hr.children_eq_nil]
    exact ha.opened hd (hr.expanded ▸ he)
  · intro hw
    obtain ⟨hd, hl, he⟩ := ha.waiting (hr.pending ▸ hw)
    exact ⟨hd, hr.children_eq_nil.2 hl, hr.expanded ▸ he⟩

/-- Where every step leads one deeper, a path leads as deep as it is long. -/
theorem depth_at?_of_steps (h : n.All fun m => ∀ c ∈ m.children, c.depth = m.depth + 1)
    {path : List Nat} {m : Node} (hm : n.at? path = some m) : m.depth = n.depth + path.length := by
  induction path generalizing n with
  | nil =>
    obtain rfl := Option.some.inj hm
    simp
  | cons i path ih =>
    rw [at?_cons] at hm
    obtain ⟨c, hc, hm⟩ := Option.bind_eq_some_iff.1 hm
    have hc' := List.mem_of_getElem? hc
    rw [ih ((all_iff.1 h).2 c hc') hm, h.root c hc', List.length_cons]
    omega

/-- The depth of a node is the length of the path that leads there. -/
theorem depth_at? (h : n.All (Fits d)) {path : List Nat} {m : Node} (hm : n.at? path = some m) :
    m.depth = n.depth + path.length := depth_at?_of_steps (h.mono fun _ => Fits.depths) hm

/-! ### Roots -/

theorem all_fits_leaf {payload : Payload} (h : payload.callItem?.isSome = d.calls?.isSome)
    (depth : Int) (callRanges : List Range) : (leaf payload depth callRanges).All (Fits d) :=
  all_leaf rfl ⟨by simp [leaf], h, fun _ he => (by cases he), fun hw => absurd rfl hw⟩

theorem getElem?_copyAll (depth : Int) (nodes : List Node) (i : Nat) :
    (copyAll depth nodes)[i]? = (nodes[i]?).map (copy depth) := by
  induction nodes generalizing i with
  | nil => simp [copyAll]
  | cons c rest ih =>
    cases i with
    | zero => simp [copyAll]
    | succ i => simpa [copyAll] using ih i

theorem children_copy (depth : Int) (n : Node) :
    (n.copy depth).children = n.children.map (copy (depth + 1)) := by
  refine List.ext_getElem? ?_
  intro i
  rw [List.getElem?_map, ← getElem?_copyAll]
  cases n
  rfl

theorem at?_copy (depth : Int) (n : Node) (path : List Nat) :
    (n.copy depth).at? path = (n.at? path).map (copy (depth + path.length)) := by
  induction path generalizing n depth with
  | nil => simp
  | cons i path ih =>
    rw [at?_cons, at?_cons, children_copy, List.getElem?_map]
    cases n.children[i]? with
    | none => rfl
    | some c =>
      have hk : depth + 1 + (path.length : Int) = depth + ((i :: path).length : Int) := by
        rw [List.length_cons]
        omega
      rw [Option.map_some, Option.bind_some, Option.bind_some, ih, hk]

theorem copy_expanded (depth : Int) (n : Node) : (n.copy depth).expanded = n.expanded := by
  cases n; rfl

theorem copy_isResolved (depth : Int) (n : Node) : (n.copy depth).isResolved = n.isResolved := by
  simp [isResolved, copy_expanded, children_copy]

theorem copy_callRanges (depth : Int) (n : Node) : (n.copy depth).callRanges = n.callRanges := by
  cases n; rfl

/-- A copy is as good as what it is a copy of. -/
theorem all_fits_copy (h : n.All (Fits d)) (depth : Int) : (n.copy depth).All (Fits d) := by
  intro path m hm
  rw [at?_copy] at hm
  obtain ⟨x, hx, rfl⟩ := Option.map_eq_some_iff.1 hm
  obtain ⟨hd, hi, ho, -⟩ := h path x hx
  refine ⟨?_, ?_, ?_, fun hw => absurd (copy_pending _ x) hw⟩
  · intro c hc
    rw [children_copy] at hc
    obtain ⟨y, -, rfl⟩ := List.mem_map.1 hc
    rw [copy_depth, copy_depth]
  · rw [copy_payload, hi]
  · intro hd he
    rw [children_copy, Ne, List.map_eq_nil_iff]
    exact ho hd (copy_expanded _ x ▸ he)

/-- No node of a copy waits for anything. -/
theorem all_idle_copy (depth : Int) (n : Node) : (n.copy depth).All (·.pending = none) := by
  intro path m hm
  rw [at?_copy] at hm
  obtain ⟨x, -, rfl⟩ := Option.map_eq_some_iff.1 hm
  exact copy_pending _ x

mutual

theorem all_fits_ofSymbol (depth : Int) :
    (symbol : DocumentSymbol) → (ofSymbol depth symbol).All (Fits .outline)
  | ⟨name, kind, range, selection, detail, children⟩ => by
    refine all_iff.2 ⟨⟨fun c hc => ?_, rfl, fun hd => (by cases hd), fun hw => absurd rfl hw⟩,
      fun c hc => ?_⟩
    · exact (all_fits_ofSymbols (depth + 1) children c hc).1
    · exact (all_fits_ofSymbols (depth + 1) children c hc).2

theorem all_fits_ofSymbols (depth : Int) :
    (symbols : List DocumentSymbol) → ∀ c ∈ ofSymbols depth symbols,
      c.depth = depth ∧ c.All (Fits .outline)
  | [] => by simp [ofSymbols]
  | symbol :: rest => by
    intro c hc
    rcases List.mem_cons.1 hc with rfl | hc
    · exact ⟨by cases symbol; rfl, all_fits_ofSymbol depth symbol⟩
    · exact all_fits_ofSymbols depth rest c hc

end

theorem all_fits_entry {entry : Entry} (h : entry.node = .ok n) :
    n.depth = 1 ∧ n.All (Fits .outline) := by
  have hs (symbol : DocumentSymbol) :
      (ofSymbol 1 symbol).depth = 1 ∧ (ofSymbol 1 symbol).All (Fits .outline) :=
    ⟨by cases symbol; rfl, all_fits_ofSymbol 1 symbol⟩
  have hl (symbol : LocatedSymbol) : (leaf (.located symbol none) 1 []).depth = 1 ∧
      (leaf (.located symbol none) 1 []).All (Fits .outline) :=
    ⟨rfl, all_fits_leaf rfl 1 []⟩
  cases entry with
  | nested symbol => exact Except.ok.inj h ▸ hs symbol
  | flat symbol => exact Except.ok.inj h ▸ hl symbol
  | raw value =>
    rw [Entry.node] at h
    split at h
    · cases hr : DocumentSymbol.ofJson value with
      | ok symbol =>
        rw [hr] at h
        exact Except.ok.inj h ▸ hs symbol
      | error e =>
        rw [hr] at h
        cases h
    · split at h
      · cases hr : LocatedSymbol.ofJson value with
        | ok symbol =>
          rw [hr] at h
          exact Except.ok.inj h ▸ hl symbol
        | error e =>
          rw [hr] at h
          cases h
      · cases h

/-- An outline is whole from the start. -/
theorem all_fits_outline {uri : Text} {entries : List Entry} (h : outline uri entries = .ok n) :
    n.depth = 0 ∧ n.All (Fits .outline) := by
  obtain ⟨root, hr, h⟩ := Except.of_bind h
  obtain ⟨children, hc, h⟩ := Except.of_bind h
  obtain rfl := Except.ok.inj h
  obtain ⟨name, -, hr⟩ := Except.of_bind (Except.of_mapError hr)
  obtain rfl := Except.ok.inj hr
  have hall : ∀ c ∈ children, c.depth = 1 ∧ c.All (Fits .outline) := fun c hc' => by
    obtain ⟨entry, -, he⟩ := Except.mem_of_mapM hc hc'
    exact all_fits_entry he
  refine ⟨rfl, all_iff.2 ⟨⟨fun c hc => (hall c hc).1, rfl, fun hd => (by cases hd),
    fun hw => absurd rfl hw⟩, fun c hc => (hall c hc).2⟩⟩

end Node

/-- What a tree is like: its root is at depth zero, and all its nodes are as its direction has
them. -/
structure Tree.Grown (t : Tree) : Prop where
  known : ∃ kind, t.direction.kind? = some kind
  depth : t.root.depth = 0
  fits : t.root.All (Node.Fits t.direction)

namespace Tree

variable {t : Tree}

theorem grown_vacant : vacant.Grown :=
  ⟨⟨.outline, rfl⟩, rfl, Node.all_fits_leaf rfl 0 []⟩

/-- The root is the one node at depth zero. -/
theorem Grown.depth_at? (h : t.Grown) {path : List Nat} {n : Node}
    (hn : t.root.at? path = some n) : n.depth = path.length := by
  rw [Node.depth_at? h.fits hn, h.depth, Int.zero_add]

/-- A node changes within its tree, with all that it gets. -/
theorem Grown.modify (h : t.Grown) {p : Place} (hp : t.IsCurrent p) {f : Node → Node}
    (hf : ∀ m, t.root.at? p.path = some m → m.Becomes (f m))
    (hm : ∀ m, t.root.at? p.path = some m → (f m).Fits t.direction)
    (hc : ∀ m, t.root.at? p.path = some m → m.children = [] →
      ∀ c ∈ (f m).children, c.All (Node.Fits t.direction)) : (t.modify p f).Grown := by
  rw [modify_of_isCurrent hp]
  refine ⟨h.known, ?_, h.fits.modifyAt Node.isNear_fits hf hm hc⟩
  rw [Node.depth_of_mark (Node.mark_modifyAt fun m hm => (hf m hm).mark)]
  exact h.depth

/-- The tree cut off below its root and turned round. -/
def turned (t : Tree) (d : CallDirection) : Tree :=
  { t.discardBelowRoot with direction := .calls d }

section Turned

variable (d : CallDirection)

@[simp] theorem generation_turned : (t.turned d).generation = t.generation + 1 :=
  generation_discardBelowRoot

theorem node?_turned {p : Place} {n : Node} (hp : p.path ≠ []) (hn : t.node? p = some n) :
    (t.turned d).node? p = some n := node?_discardBelowRoot hp hn

/-- Nothing stands below the root of a tree that was turned round, and the root waits for
nothing. -/
theorem at?_turned {path : List Nat} {n : Node} (hn : (t.turned d).root.at? path = some n) :
    n.pending = none ∧ n.children = [] ∧ n.expanded = false := by
  cases path with
  | nil => exact Option.some.inj hn ▸ ⟨rfl, rfl, rfl⟩
  | cons i path =>
    rw [Node.at?_cons_of_leaf rfl] at hn
    cases hn

theorem Grown.turned (h : t.Grown) {e : CallDirection} (he : t.direction = .calls e) :
    (t.turned d).Grown := by
  have hi := h.fits.root.item
  rw [he] at hi
  refine ⟨⟨.calls, rfl⟩, h.depth, Node.all_leaf rfl ⟨fun c hc => ?_, hi, ?_, ?_⟩⟩
  · cases hc
  · exact fun _ he => by cases he
  · exact fun hw => absurd rfl hw

end Turned

end Tree

end SymbolTrees
