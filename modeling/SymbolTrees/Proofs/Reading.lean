import Mathlib.Data.List.Flatten
import SymbolTrees.Proofs.Blocks

/-!
# Rows read back

Without icons, a row gives away all that it shows of a node: how deep the node is, its sign, its
kind and its name (`Node.read_rowText`). A name may hold whatever it likes, even what looks like the
beginning of a row, for it comes last, and what stands before it is read from the front. From the
depths of the rows, one after the other, follows what lies below what (`Sight.words_inj`). So lines
that are the same come from trees of which the same is to be seen.
-/

namespace SymbolTrees

/-- What a row shows of a node beside its depth. -/
structure Legend where
  sign : Char
  kind : Option SymbolKind
  name : Text
deriving DecidableEq

/-- What is to be seen of a node, and of the nodes below it. -/
inductive Sight where
  | mk (legend : Legend) (below : List Sight)

namespace Node

/-- What the row of a node shows without icons. -/
def legend (n : Node) : Legend := ⟨n.sign .plain, n.kind, n.name⟩

mutual

/-- What is to be seen of a node that is not the root: of those below it, something only if it is
expanded. -/
def sight : Node → Sight
  | ⟨payload, depth, expanded, pending, callRanges, children⟩ =>
    .mk (legend ⟨payload, depth, expanded, pending, callRanges, children⟩)
      (if expanded then sights children else [])

def sights : List Node → List Sight
  | [] => []
  | node :: rest => sight node :: sights rest

end

end Node

/-- What is to be seen of a tree: the root and its children always. -/
def Tree.sight (t : Tree) : Sight := .mk t.root.legend (Node.sights t.root.children)

/-! ### A row -/

theorem SymbolKind.find?_label (kind : Option SymbolKind) :
    all.find? (fun k => k.label == labelOf kind) = kind := by
  cases kind with
  | none => decide
  | some k => cases k <;> decide

/-- Labels are made of letters. -/
theorem SymbolKind.letter_of_mem_label {kind : Option SymbolKind} {g : Glyph}
    (h : g ∈ Text.ofString (labelOf kind)) : ∃ c : Char, c.isAlpha = true ∧ g = .char c := by
  have hall : (labelOf kind).toList.all Char.isAlpha = true := by
    cases kind with
    | none => decide
    | some k => cases k <;> decide
  obtain ⟨c, hc, rfl⟩ := List.mem_map.1 h
  exact ⟨c, List.all_eq_true.1 hall c hc, rfl⟩

namespace Legend

/-- What follows the indent of a row. -/
def text (l : Legend) : Text :=
  .char l.sign :: .char ' ' :: .char ' ' :: .char '[' ::
    (Text.ofString (SymbolKind.labelOf l.kind) ++
      .char ']' :: .char ' ' :: .char '•' :: .char ' ' :: l.name)

/-- The row of a node without icons. -/
def line (guides : Bool) (root : Path) (depth : Nat) (l : Legend) : Text :=
  Text.ofChars (Style.indent ⟨.plain, guides, root⟩ depth) ++ l.text

def isIndent (g : Glyph) : Bool := g == .char ' ' || g == .char '⎸'

/-- What the text behind the opening bracket says: the label up to the next bracket, and after
another three places the name. -/
def ofCaption (sign : Char) (s : Text) : Legend :=
  let label := s.takeWhile (· != .char ']')
  ⟨sign, SymbolKind.all.find? (fun k => k.label == Text.toString label), s.drop (label.length + 4)⟩

/-- The depth and the legend of a row. Blanks count the depth; before a bracket the sign is blank
too, and two more blanks stand behind it. -/
def read (row : Text) : Option (Nat × Legend) :=
  let blanks := (row.takeWhile isIndent).count (.char ' ')
  match row.dropWhile isIndent with
  | .char c :: rest =>
    some (if c = '[' then (blanks - 3, ofCaption ' ' rest) else (blanks, ofCaption c (rest.drop 3)))
  | _ => none

variable {guides : Bool} {root : Path} {l : Legend}

/-- Every level is one blank, with or without a line before it. -/
theorem count_indent (d : Nat) :
    (Text.ofChars (Style.indent ⟨.plain, guides, root⟩ d)).count (.char ' ') = d := by
  cases guides with
  | false => simp [Style.indent, Text.ofChars]
  | true =>
    induction d with
    | zero => rfl
    | succ d ih =>
      simp only [Style.indent, Text.ofChars, if_true, Int.toNat_natCast] at ih ⊢
      rw [List.range_succ, List.flatMap_append, List.map_append, List.count_append, ih]
      by_cases hd : d = 0 <;> simp [hd]

theorem isIndent_of_mem_indent {style : Style} {d : Int} {g : Glyph}
    (h : g ∈ Text.ofChars (style.indent d)) : isIndent g = true := by
  obtain ⟨c, hc, rfl⟩ := List.mem_map.1 h
  unfold Style.indent at hc
  split at hc
  · obtain ⟨level, -, hc⟩ := List.mem_flatMap.1 hc
    split at hc
    · obtain rfl := List.mem_singleton.1 hc
      rfl
    · simp only [List.mem_cons, List.not_mem_nil, or_false] at hc
      rcases hc with rfl | rfl <;> rfl
  · obtain rfl := List.eq_of_mem_replicate hc
    rfl

/-- The indent of a row ends where something else begins. -/
theorem read_append {s : Text} (hs : ∀ g ∈ s, isIndent g = true) {c : Char}
    (hc : isIndent (.char c) = false) (rest : Text) :
    read (s ++ .char c :: rest) =
      some (if c = '[' then (s.count (.char ' ') - 3, ofCaption ' ' rest)
        else (s.count (.char ' '), ofCaption c (rest.drop 3))) := by
  have hc' : ¬isIndent (.char c) = true := by simp [hc]
  unfold read
  rw [List.takeWhile_append_of_pos hs, List.dropWhile_append_of_pos hs,
    List.takeWhile_cons_of_neg hc', List.dropWhile_cons_of_neg hc', List.append_nil]

theorem ofCaption_label (sign : Char) (kind : Option SymbolKind) (name : Text) :
    ofCaption sign (Text.ofString (SymbolKind.labelOf kind) ++
      .char ']' :: .char ' ' :: .char '•' :: .char ' ' :: name) = ⟨sign, kind, name⟩ := by
  have hlabel : ∀ g ∈ Text.ofString (SymbolKind.labelOf kind), (g != Glyph.char ']') = true := by
    intro g hg
    obtain ⟨c, hc, rfl⟩ := SymbolKind.letter_of_mem_label hg
    exact bne_iff_ne.2 fun he => by cases he; cases hc
  unfold ofCaption
  rw [List.takeWhile_append_of_pos hlabel,
    List.takeWhile_cons_of_neg (by simp), List.append_nil]
  simp only [Text.toString_ofString, SymbolKind.find?_label]
  rw [List.drop_append]
  simp

/-- **A row is read back**, whether its indent has guides or not. -/
theorem read_line (h : l.sign = ' ' ∨ l.sign = '▼' ∨ l.sign = '▶') (d : Nat) :
    read (l.line guides root d) = some (d, l) := by
  obtain ⟨sign, kind, name⟩ := l
  obtain ⟨indent, hindent⟩ :
    ∃ indent, Text.ofChars (Style.indent ⟨.plain, guides, root⟩ (d : Int)) = indent := ⟨_, rfl⟩
  have hin : ∀ g ∈ indent, isIndent g = true := fun g hg => isIndent_of_mem_indent (hindent ▸ hg)
  have hcount : indent.count (.char ' ') = d := hindent ▸ count_indent d
  unfold line text
  rw [hindent]
  dsimp only at h ⊢
  have hcaption := ofCaption_label sign kind name
  generalize Text.ofString (SymbolKind.labelOf kind) ++
    Glyph.char ']' :: .char ' ' :: .char '•' :: .char ' ' :: name = caption at hcaption ⊢
  by_cases hsign : sign = ' '
  · -- A blank sign reads on as indent, up to the bracket.
    subst hsign
    have hall : ∀ g ∈ indent ++ List.replicate 3 (Glyph.char ' '), isIndent g = true := by
      intro g hg
      rcases List.mem_append.1 hg with hg | hg
      · exact hin g hg
      · exact List.eq_of_mem_replicate hg ▸ rfl
    have hrow : indent ++ .char ' ' :: .char ' ' :: .char ' ' :: .char '[' :: caption =
        (indent ++ List.replicate 3 (Glyph.char ' ')) ++ .char '[' :: caption := by
      rw [List.append_assoc]
      rfl
    rw [hrow, read_append hall rfl, if_pos rfl, List.count_append, hcount,
      List.count_replicate_self, Nat.add_sub_cancel, hcaption]
  · have hmark : isIndent (.char sign) = false ∧ sign ≠ '[' := by
      rcases h with rfl | rfl | rfl
      · exact absurd rfl hsign
      · exact ⟨rfl, by decide⟩
      · exact ⟨rfl, by decide⟩
    rw [read_append hin hmark.1, if_neg hmark.2, hcount]
    exact congrArg (fun l => some (d, l)) hcaption

end Legend

namespace Node

variable {guides : Bool} {root : Path}

/-- The three signs without icons. -/
theorem sign_plain (n : Node) :
    n.sign .plain = ' ' ∨ n.sign .plain = '▼' ∨ n.sign .plain = '▶' := by
  unfold sign
  dsimp only
  split
  · exact .inl rfl
  · split
    · exact .inr (.inl rfl)
    · exact .inr (.inr rfl)

/-- A row is the line of its depth and its legend; no depth is drawn below zero. -/
theorem rowText_plain (n : Node) :
    n.rowText ⟨.plain, guides, root⟩ = n.legend.line guides root n.depth.toNat := by
  have hindent : Style.indent ⟨.plain, guides, root⟩ n.depth =
      Style.indent ⟨.plain, guides, root⟩ (n.depth.toNat : Int) := by
    unfold Style.indent
    rw [Int.toNat_natCast]
  unfold rowText caption
  rw [hindent, Text.ofChars, List.map_append, List.append_assoc]
  refine congrArg (_ ++ ·) ?_
  dsimp only
  rw [if_pos rfl, List.append_assoc, List.append_assoc]
  rfl

theorem read_rowText (n : Node) :
    Legend.read (n.rowText ⟨.plain, guides, root⟩) = some (n.depth.toNat, n.legend) := by
  rw [rowText_plain, Legend.read_line n.sign_plain]

end Node

/-! ### What lies below what -/

namespace Sight

mutual

/-- What is to be seen, a node before those below it, with the depths. -/
def words (d : Nat) : Sight → List (Nat × Legend)
  | .mk legend below => (d, legend) :: wordsAll (d + 1) below

def wordsAll (d : Nat) : List Sight → List (Nat × Legend)
  | [] => []
  | node :: rest => words d node ++ wordsAll d rest

end

/-- What follows leads back above a depth, if anything follows. -/
def Returns (d : Nat) (rest : List (Nat × Legend)) : Prop := ∀ word ∈ rest.head?, word.1 < d

variable {d : Nat} {u v : List (Nat × Legend)}

theorem Returns.mono {e : Nat} (h : Returns d u) (hde : d ≤ e) : Returns e u :=
  fun word hw => Nat.lt_of_lt_of_le (h word hw) hde

/-- Siblings stand at their own depth, so nothing of what follows lies below the node before. -/
theorem Returns.wordsAll (h : Returns d u) (nodes : List Sight) :
    Returns (d + 1) (wordsAll d nodes ++ u) := by
  cases nodes with
  | nil => exact h.mono (Nat.le_succ d)
  | cons node rest =>
    cases node
    rintro word hw
    obtain rfl := Option.some.inj hw
    exact Nat.lt_succ_self d

mutual

/-- **The depths say what lies below what**: a node ends where the next depth is no greater. -/
theorem words_inj {d : Nat} {u v : List (Nat × Legend)} (hu : Returns (d + 1) u)
    (hv : Returns (d + 1) v) : (x y : Sight) → words d x ++ u = words d y ++ v → x = y ∧ u = v
  | .mk l below, .mk l' below', h => by
    rw [words, words, List.cons_append, List.cons_append] at h
    obtain ⟨hl, hrest⟩ := List.cons.inj h
    obtain rfl := (Prod.mk.inj hl).2
    obtain ⟨rfl, he⟩ := wordsAll_inj hu hv below below' hrest
    exact ⟨rfl, he⟩

theorem wordsAll_inj {d : Nat} {u v : List (Nat × Legend)} (hu : Returns d u) (hv : Returns d v) :
    (xs ys : List Sight) → wordsAll d xs ++ u = wordsAll d ys ++ v → xs = ys ∧ u = v
  | [], [], h => ⟨rfl, h⟩
  | [], .mk l below :: ys, h => by
    rw [wordsAll, List.nil_append] at h
    have hhead : (d, l) ∈ u.head? := by
      rw [h]
      rfl
    exact absurd (hu (d, l) hhead) (Nat.lt_irrefl d)
  | .mk l below :: xs, [], h => by
    rw [wordsAll, wordsAll, List.nil_append] at h
    have hhead : (d, l) ∈ v.head? := by
      rw [← h]
      rfl
    exact absurd (hv (d, l) hhead) (Nat.lt_irrefl d)
  | x :: xs, y :: ys, h => by
    rw [wordsAll, wordsAll, List.append_assoc, List.append_assoc] at h
    obtain ⟨rfl, hrest⟩ := words_inj (hu.wordsAll xs) (hv.wordsAll ys) x y h
    obtain ⟨rfl, he⟩ := wordsAll_inj hu hv xs ys hrest
    exact ⟨rfl, he⟩

end

end Sight

namespace Node

/-- A property of a node and of all nodes below it, along the children. -/
theorem all_mk {Φ : Node → Prop} (payload : Payload) (depth : Int) (expanded : Bool)
    (pending : Option Token) (callRanges : List Range) (children : List Node) :
    (Node.mk payload depth expanded pending callRanges children).All Φ ↔
      Φ ⟨payload, depth, expanded, pending, callRanges, children⟩ ∧ ∀ c ∈ children, c.All Φ :=
  all_iff

/-- What a node shows, with its depth. -/
def word (entry : List Nat × Node) : Nat × Legend := (entry.2.depth.toNat, entry.2.legend)

mutual

/-- The nodes on display are the words of what is to be seen. -/
theorem words_visible {d : Nat} (base : List Nat) : (n : Node) → n.depth = d + 1 →
    (n.All fun m => ∀ c ∈ m.children, c.depth = m.depth + 1) →
    (n.visible base).map word = n.sight.words (d + 1)
  | ⟨payload, depth, expanded, pending, callRanges, children⟩, hd, hc => by
    have hbelow := words_visibleAll base 0 children (d := d + 1)
      (fun c hm => by rw [hc.root c hm, hd]; rfl) (fun c hm => (all_iff.1 hc).2 c hm)
    have hshows : (expanded || depth == 0) = expanded := by
      have hne : (depth == 0) = false := by
        dsimp only at hd
        simp only [beq_eq_false_iff_ne, ne_eq]
        omega
      rw [hne, Bool.or_false]
    rw [visible, hshows, List.map_cons, sight, Sight.words]
    have hword : word (base, ⟨payload, depth, expanded, pending, callRanges, children⟩) =
        (d + 1, legend ⟨payload, depth, expanded, pending, callRanges, children⟩) := by
      dsimp only at hd
      rw [word, hd]
      rfl
    rw [hword]
    cases expanded with
    | false => rfl
    | true => exact congrArg _ hbelow

theorem words_visibleAll {d : Nat} (base : List Nat) (i : Nat) : (nodes : List Node) →
    (∀ c ∈ nodes, c.depth = d + 1) →
    (∀ c ∈ nodes, c.All fun m => ∀ c ∈ m.children, c.depth = m.depth + 1) →
    (visibleAll base i nodes).map word = Sight.wordsAll (d + 1) (sights nodes)
  | [], _, _ => rfl
  | node :: rest, hd, hc => by
    rw [List.forall_mem_cons] at hd hc
    rw [visibleAll, List.map_append, words_visible _ node hd.1 hc.1,
      words_visibleAll base (i + 1) rest hd.2 hc.2, sights, Sight.wordsAll]

end

end Node

/-- The words of a tree whose depths are counted. -/
theorem Tree.words_visible {t : Tree} (hc : t.root.Counted) :
    (t.root.visible []).map Node.word = t.sight.words 0 := by
  have hbelow := Node.words_visibleAll [] 0 t.root.children (d := 0)
    (fun c hm => by rw [hc.below.root c hm, hc.first]; rfl)
    (fun c hm => (Node.all_iff.1 hc.below).2 c hm)
  have hshows : t.root.showsChildren = true := by
    rw [Node.showsChildren, hc.first]
    simp
  rw [Node.visible_eq, hshows, if_pos rfl, List.map_cons, hbelow, Node.word, hc.first]
  rfl

namespace View

variable {guides : Bool} {root : Path} {t : Tree} {view : View}

theorem lines_of_ofTree {style : Style} (hv : ofTree t style = .ok view) :
    view.lines = (t.root.visible []).map fun entry => entry.2.rowText style := by
  have hrows := Except.of_mapM hv
  generalize t.root.visible [] = nodes at hrows
  clear hv
  induction hrows with
  | nil => rfl
  | cons hrow _ ih =>
    rw [lines, List.map_cons, List.map_cons, ← ih, (text_of_row hrow).2.2]
    rfl

/-- The lines of a tree are those of its words. -/
theorem lines_eq (hc : t.root.Counted) (hv : ofTree t ⟨.plain, guides, root⟩ = .ok view) :
    view.lines = (t.sight.words 0).map fun word => word.2.line guides root word.1 := by
  rw [lines_of_ofTree hv, ← Tree.words_visible hc, List.map_map]
  exact List.map_congr_left fun entry _ => Node.rowText_plain entry.2

/-- The words are read back from the lines. -/
theorem read_lines (hc : t.root.Counted) (hv : ofTree t ⟨.plain, guides, root⟩ = .ok view) :
    view.lines.map Legend.read = (t.sight.words 0).map some := by
  rw [lines_of_ofTree hv, ← Tree.words_visible hc, List.map_map, List.map_map]
  exact List.map_congr_left fun entry _ => Node.read_rowText entry.2

/-- **Rows are unambiguous.** Without icons, and with or without guides, two nodes have one row just
if they have the same depth, sign, kind and name, whatever the names hold; no depth is drawn below
zero. And two trees have the same lines just if the same is to be seen of them: nodes with the same
signs, kinds and names, in the same order, each below the same node. -/
theorem rows_unambiguous (guides : Bool) (root : Path) :
    (∀ n m : Node, n.rowText ⟨.plain, guides, root⟩ = m.rowText ⟨.plain, guides, root⟩ ↔
      n.depth.toNat = m.depth.toNat ∧ n.sign .plain = m.sign .plain ∧ n.kind = m.kind ∧
        n.name = m.name) ∧
    ∀ (t u : Tree) (v w : View), t.root.Counted → u.root.Counted →
      ofTree t ⟨.plain, guides, root⟩ = .ok v → ofTree u ⟨.plain, guides, root⟩ = .ok w →
      (v.lines = w.lines ↔ t.sight = u.sight) := by
  refine ⟨fun n m => ⟨fun h => ?_, fun ⟨hd, hs, hk, hn⟩ => ?_⟩, ?_⟩
  · have hread := congrArg Legend.read h
    rw [n.read_rowText, m.read_rowText] at hread
    obtain ⟨hd, hl⟩ := Prod.mk.inj (Option.some.inj hread)
    obtain ⟨hs, hk, hn⟩ := Legend.mk.inj hl
    exact ⟨hd, hs, hk, hn⟩
  · rw [n.rowText_plain, m.rowText_plain, hd, Node.legend, Node.legend, hs, hk, hn]
  · intro t u v w ht hu hv hw
    constructor
    · intro h
      have hwords : (t.sight.words 0).map some = (u.sight.words 0).map some := by
        rw [← read_lines ht hv, ← read_lines hu hw, h]
      have he := List.map_injective_iff.2 (fun _ _ => Option.some.inj) hwords
      exact (Sight.words_inj (u := []) (v := []) nofun nofun t.sight u.sight
        (by rw [List.append_nil, List.append_nil, he])).1
    · intro h
      rw [lines_eq ht hv, lines_eq hu hw, h]

/-- Two nodes, the second below the first or beside it. The name of the first looks like a row. -/
def pairUp (below : Bool) : Tree :=
  let symbol (name : Text) : Payload := .document ⟨name, some .file, default, default, none, []⟩
  let first := Node.leaf (symbol " ▼  [File] • b") 1 []
  let second (depth : Int) := Node.leaf (symbol "b") depth []
  { Tree.vacant with root := { Node.leaf (symbol "a") 0 [] with children :=
      if below then [{ first with expanded := true, children := [second 2] }]
      else [first, second 1] } }

theorem rows_unambiguous_pairUp : (pairUp true).root.Counted ∧ (pairUp false).root.Counted ∧
    ∃ v w, ofTree (pairUp true) ⟨.plain, false, default⟩ = .ok v ∧
      ofTree (pairUp false) ⟨.plain, false, default⟩ = .ok w ∧ v.lines ≠ w.lines := by
  have ht : (pairUp true).root.Counted := ⟨rfl, by simp [pairUp, Node.all_mk, Node.leaf]⟩
  have hu : (pairUp false).root.Counted := ⟨rfl, by simp [pairUp, Node.all_mk, Node.leaf]⟩
  refine ⟨ht, hu, _, _, rfl, rfl, fun h => ?_⟩
  have hsight := ((rows_unambiguous false default).2 _ _ _ _ ht hu rfl rfl).1 h
  have hlength := congrArg (fun | Sight.mk _ below => below.length) hsight
  exact absurd hlength (by decide)

end View

end SymbolTrees
