import SymbolTrees.Proofs.Tree.Shape
import SymbolTrees.Registry

/-!
# Registries

What a change does to the trees of a registry and to the question which of them are open. Handles
are distinct as long as every new one is above all that were given out.
-/

namespace SymbolTrees

/-- What a registry is after the tree of a handle was closed. -/
def Registry.without (r : Registry) (handle : Int) (id : TreeId) (kind : TreeKind) : Registry :=
  let rest := { r with slots := r.slots.erase handle }.update id Tree.close
  if rest.recent kind = some handle then rest.setRecent kind none else rest

/-- What a registry is after a tree was planted and opened. -/
def Registry.including (r : Registry) (t : Tree) (kind : TreeKind) : Registry :=
  { r with trees := r.trees ++ [t], slots := r.slots.put t.handle r.trees.length }.setRecent kind
    (some t.handle)

namespace Registry

variable {r : Registry} {id other : TreeId} {f : Tree → Tree}

/-! ### Trees -/

theorem tree_update_of_ne (h : other ≠ id) : (r.update id f).tree other = r.tree other := by
  simp [tree, update, List.getD_eq_getElem?_getD, Ne.symm h]

theorem tree_update_self (h : id < r.trees.length) : (r.update id f).tree id = f (r.tree id) := by
  simp [tree, update, List.getD_eq_getElem?_getD, h]

/-- A tree that was never planted cannot be changed. -/
theorem tree_update_cases (r : Registry) (id other : TreeId) (f : Tree → Tree) :
    (r.update id f).tree other = r.tree other ∨
      other = id ∧ (r.update id f).tree other = f (r.tree id) := by
  by_cases ho : other = id
  · subst ho
    by_cases hi : other < r.trees.length
    · exact .inr ⟨rfl, tree_update_self hi⟩
    · left
      simp [tree, update, List.getD_eq_getElem?_getD, hi]
  · exact .inl (tree_update_of_ne ho)

/-- What a change keeps of the tree that it changes, it keeps of all trees. -/
theorem tree_update_of_keeps {α : Type} (g : Tree → α) (hf : g (f (r.tree id)) = g (r.tree id)) :
    g ((r.update id f).tree other) = g (r.tree other) := by
  rcases tree_update_cases r id other f with h | ⟨rfl, h⟩
  · rw [h]
  · rw [h, hf]

theorem tree_of_length_le (h : r.trees.length ≤ id) : r.tree id = .vacant := by
  simp [tree, List.getD_eq_getElem?_getD, List.getElem?_eq_none h]

@[simp] theorem length_trees_update : (r.update id f).trees.length = r.trees.length :=
  List.length_modify ..

theorem update_update (g : Tree → Tree) :
    (r.update id f).update id g = r.update id fun t => g (f t) := by
  simp [update, List.modify_modify_eq, Function.comp_def]

/-- A change that leaves the tree as it is. -/
theorem update_eq_self (h : f (r.tree id) = r.tree id) : r.update id f = r := by
  have htrees : r.trees.modify id f = r.trees := by
    refine List.ext_getElem? fun j => ?_
    rw [List.getElem?_modify]
    split
    · rename_i hj
      subst hj
      cases hi : r.trees[id]? with
      | none => rfl
      | some t =>
        have ht : r.tree id = t := by rw [tree, List.getD_eq_getElem?_getD, hi, Option.getD_some]
        rw [ht] at h
        exact congrArg some h
    · simp
  rw [update, htrees]

/-! ### A node of a tree -/

section Node

variable {ref : NodeRef} {f : Node → Node} {path : List Nat} {n : Node}

theorem tree_updateNode_self (h : ref.tree < r.trees.length) :
    (r.updateNode ref f).tree ref.tree = (r.tree ref.tree).modify ref.place f := tree_update_self h

theorem generation_updateNode (hc : (r.tree ref.tree).IsCurrent ref.place) :
    ((r.updateNode ref f).tree id).generation = (r.tree id).generation :=
  tree_update_of_keeps Tree.generation (Tree.generation_modify hc)

theorem direction_updateNode (ref : NodeRef) (f : Node → Node) :
    ((r.updateNode ref f).tree id).direction = (r.tree id).direction :=
  tree_update_of_keeps Tree.direction Tree.direction_modify

/-- Where the nodes come from after a node was changed: they are those of other places, the changed
node, and the nodes below it that it got. -/
theorem at?_updateNode_cases (hlt : ref.tree < r.trees.length)
    (hc : (r.tree ref.tree).IsCurrent ref.place)
    (hf : ∀ m, (r.tree ref.tree).root.at? ref.place.path = some m → m.Becomes (f m))
    (hn : ((r.updateNode ref f).tree id).root.at? path = some n) :
    (¬(id = ref.tree ∧ path = ref.place.path) ∧
      ∃ x, (r.tree id).root.at? path = some x ∧ x.Resembles n) ∨
    id = ref.tree ∧ ∃ m, (r.tree ref.tree).root.at? ref.place.path = some m ∧
      (path = ref.place.path ∧ n = f m ∨
        ∃ i rest, m.children = [] ∧ path = ref.place.path ++ i :: rest ∧
          (f m).at? (i :: rest) = some n) := by
  by_cases hid : id = ref.tree
  · subst hid
    rw [tree_updateNode_self hlt, Tree.modify_of_isCurrent hc] at hn
    rcases Node.at?_modifyAt_cases hf hn with
      ⟨hne, hx⟩ | ⟨hp, m, hm, he⟩ | ⟨m, i, rest, hm, hl, hp, hy⟩
    · exact .inl ⟨fun h => hne h.2, hx⟩
    · exact .inr ⟨rfl, m, hm, .inl ⟨hp, he⟩⟩
    · exact .inr ⟨rfl, m, hm, .inr ⟨i, rest, hl, hp, hy⟩⟩
  · have he : (r.updateNode ref f).tree id = r.tree id := tree_update_of_ne hid
    rw [he] at hn
    exact .inl ⟨fun h => hid h.1, n, hn, .refl n⟩

end Node

section Recent

variable (kind : TreeKind) (handle : Option Int)

@[simp] theorem trees_setRecent : (r.setRecent kind handle).trees = r.trees := by cases kind <;> rfl
@[simp] theorem slots_setRecent : (r.setRecent kind handle).slots = r.slots := by cases kind <;> rfl
@[simp] theorem nextHandle_setRecent : (r.setRecent kind handle).nextHandle = r.nextHandle := by
  cases kind <;> rfl
@[simp] theorem tree_setRecent : (r.setRecent kind handle).tree id = r.tree id := by
  cases kind <;> rfl

end Recent

section Close

variable (handle : Int) (id : TreeId) (kind : TreeKind)

theorem tree_without :
    (r.without handle id kind).tree other = (r.update id Tree.close).tree other := by
  unfold without
  simp only
  split
  · rw [tree_setRecent]
    rfl
  · rfl

@[simp] theorem slots_without : (r.without handle id kind).slots = r.slots.erase handle := by
  unfold without
  simp only
  split
  · rw [slots_setRecent]
    rfl
  · rfl

@[simp] theorem nextHandle_without : (r.without handle id kind).nextHandle = r.nextHandle := by
  unfold without
  simp only
  split
  · rw [nextHandle_setRecent]
    rfl
  · rfl

@[simp] theorem length_trees_without :
    (r.without handle id kind).trees.length = r.trees.length := by
  unfold without
  simp only
  split
  · rw [trees_setRecent]
    exact List.length_modify ..
  · exact List.length_modify ..

end Close

section Open

variable (t : Tree) (kind : TreeKind)

theorem tree_including_of_lt (h : id < r.trees.length) :
    (r.including t kind).tree id = r.tree id := by
  simp [including, tree, List.getD_eq_getElem?_getD, List.getElem?_append_left h]

@[simp] theorem tree_including_length : (r.including t kind).tree r.trees.length = t := by
  simp [including, tree, List.getD_eq_getElem?_getD]

theorem tree_including_cases (id : TreeId) :
    (r.including t kind).tree id = r.tree id ∨
    id = r.trees.length ∧ (r.including t kind).tree id = t := by
  rcases Nat.lt_trichotomy id r.trees.length with h | rfl | h
  · exact .inl (tree_including_of_lt t kind h)
  · exact .inr ⟨rfl, tree_including_length t kind⟩
  · left
    rw [tree_of_length_le (Nat.le_of_lt h), tree_of_length_le]
    rw [including, trees_setRecent, List.length_append, List.length_singleton]
    exact h

@[simp] theorem slots_including :
    (r.including t kind).slots = r.slots.put t.handle r.trees.length := slots_setRecent ..

@[simp] theorem trees_including : (r.including t kind).trees = r.trees ++ [t] := trees_setRecent ..

@[simp] theorem nextHandle_including : (r.including t kind).nextHandle = r.nextHandle :=
  nextHandle_setRecent ..

end Open

/-! ### Open trees -/

/-- The handles agree: every slot holds an open tree with its handle, and no handle is given out
that was given out before. -/
structure Sound (r : Registry) : Prop where
  distinct : (r.slots.map Prod.fst).Nodup
  slots : ∀ handle id, r.slots.get? handle = some id →
    id < r.trees.length ∧ (r.tree id).handle = handle ∧ (r.tree id).closed = false
  issued : ∀ id < r.trees.length, (r.tree id).handle < r.nextHandle

theorem sound_empty : empty.Sound :=
  ⟨List.nodup_nil, fun _ _ h => (by cases h), fun _ h => absurd h (Nat.not_lt_zero _)⟩

theorem isOpen_iff : r.isOpen id ↔
    (r.tree id).closed = false ∧ r.slots.get? (r.tree id).handle = some id := by
  rw [isOpen, Bool.and_eq_true, Bool.not_eq_true', beq_iff_eq]

/-- Being open is a matter of the slots and the handles alone, and of what was closed. -/
theorem isOpen_congr {q : Registry} (hs : q.slots = r.slots)
    (hh : (q.tree id).handle = (r.tree id).handle) (hc : (q.tree id).closed = (r.tree id).closed) :
    q.isOpen id = r.isOpen id := by
  rw [isOpen, isOpen, hs, hh, hc]

theorem isOpen_update (hh : (f (r.tree id)).handle = (r.tree id).handle)
    (hc : (f (r.tree id)).closed = (r.tree id).closed) :
    (r.update id f).isOpen other = r.isOpen other :=
  isOpen_congr rfl (tree_update_of_keeps Tree.handle hh) (tree_update_of_keeps Tree.closed hc)

theorem isOpen_updateNode {ref : NodeRef} {f : Node → Node} :
    (r.updateNode ref f).isOpen other = r.isOpen other :=
  isOpen_update Tree.handle_modify Tree.closed_modify

namespace Sound

variable (hr : r.Sound)
include hr

theorem isOpen_of_slot {handle : Int} (h : r.slots.get? handle = some id) : r.isOpen id := by
  obtain ⟨-, hh, hc⟩ := hr.slots handle id h
  rw [isOpen_iff, hh]
  exact ⟨hc, h⟩

theorem lt_of_isOpen (h : r.isOpen id) : id < r.trees.length :=
  (hr.slots _ _ (isOpen_iff.1 h).2).1

theorem update (hh : ∀ t, (f t).handle = t.handle) (hc : ∀ t, (f t).closed = t.closed) :
    (r.update id f).Sound := by
  refine ⟨hr.distinct, ?_, ?_⟩
  · intro handle other h
    obtain ⟨hl, h1, h2⟩ := hr.slots handle other h
    rw [length_trees_update, tree_update_of_keeps Tree.handle (hh _),
      tree_update_of_keeps Tree.closed (hc _)]
    exact ⟨hl, h1, h2⟩
  · intro other h
    rw [length_trees_update] at h
    rw [tree_update_of_keeps Tree.handle (hh _)]
    exact hr.issued other h

theorem newHandle : ({ r with nextHandle := r.nextHandle + 1 } : Registry).Sound :=
  ⟨hr.distinct, hr.slots, fun id h => Int.lt_trans (hr.issued id h) (Int.lt_succ _)⟩

theorem without {handle : Int} (hs : r.slots.get? handle = some id) (kind : TreeKind) :
    (r.without handle id kind).Sound := by
  refine ⟨?_, ?_, ?_⟩
  · rw [slots_without]
    exact Table.nodup_filter hr.distinct
  · intro h other ho
    rw [slots_without, Table.get?_erase] at ho
    split at ho
    · cases ho
    · rename_i hne
      have hoi : other ≠ id := by
        rintro rfl
        exact hne ((hr.slots _ _ hs).2.1.symm.trans (hr.slots _ _ ho).2.1)
      rw [length_trees_without, tree_without, tree_update_of_ne hoi]
      exact hr.slots h other ho
  · intro other ho
    rw [length_trees_without] at ho
    rw [nextHandle_without, tree_without, tree_update_of_keeps Tree.handle rfl]
    exact hr.issued other ho

theorem including {t : Tree} (hc : t.closed = false) (hlt : t.handle < r.nextHandle)
    (kind : TreeKind) : (r.including t kind).Sound := by
  refine ⟨?_, ?_, ?_⟩
  · rw [slots_including]
    exact Table.nodup_put hr.distinct
  · intro h other ho
    rw [slots_including, Table.get?_put] at ho
    rw [trees_including, List.length_append, List.length_singleton]
    split at ho
    · rename_i he
      obtain rfl := Option.some.inj ho
      rw [tree_including_length]
      exact ⟨Nat.lt_succ_self _, he, hc⟩
    · obtain ⟨hl, h1, h2⟩ := hr.slots h other ho
      rw [tree_including_of_lt _ _ hl]
      exact ⟨Nat.lt_succ_of_lt hl, h1, h2⟩
  · intro other ho
    rw [nextHandle_including]
    rw [trees_including, List.length_append, List.length_singleton] at ho
    rcases Nat.lt_succ_iff_lt_or_eq.1 ho with ho | rfl
    · rw [tree_including_of_lt _ _ ho]
      exact hr.issued other ho
    · rw [tree_including_length]
      exact hlt

/-- What is open after a tree was closed was open before, and is another tree. -/
theorem isOpen_without {handle : Int} (hs : r.slots.get? handle = some id) (kind : TreeKind) :
    (r.without handle id kind).isOpen other ↔ r.isOpen other ∧ other ≠ id := by
  rw [isOpen_iff, isOpen_iff, tree_without, slots_without]
  by_cases ho : other = id
  · subst ho
    rw [tree_update_self (hr.slots _ _ hs).1]
    simp [Tree.close]
  · rw [tree_update_of_ne ho, Table.get?_erase]
    split
    · rename_i he
      rw [← he, hs]
      simp [Ne.symm ho]
    · simp [ho]

end Sound

/-- What is open after a tree was planted was open before, or is the new tree. -/
theorem isOpen_including {t : Tree} (hc : t.closed = false)
    (hnew : ∀ id < r.trees.length, (r.tree id).handle < t.handle) (kind : TreeKind) :
    (r.including t kind).isOpen other ↔ r.isOpen other ∨ other = r.trees.length := by
  rw [isOpen_iff, isOpen_iff, slots_including]
  rcases Nat.lt_trichotomy other r.trees.length with ho | rfl | ho
  · rw [tree_including_of_lt _ _ ho, Table.get?_put, if_neg (Int.ne_of_gt (hnew other ho))]
    simp [Nat.ne_of_lt ho]
  · rw [tree_including_length, Table.get?_put_self]
    simp [hc]
  · have hv : (r.tree other).closed = true := by
      rw [tree_of_length_le (Nat.le_of_lt ho)]
      rfl
    rcases tree_including_cases (r := r) t kind other with he | ⟨he, -⟩
    · rw [he, hv]
      simp [Nat.ne_of_gt ho]
    · exact absurd he (Nat.ne_of_gt ho)

/-! ### Ageing -/

/-- `q` is what became of `r`: no tree is lost, none was opened again, and none is in an earlier
generation. -/
structure Ages (r q : Registry) : Prop where
  length : r.trees.length ≤ q.trees.length
  closed : ∀ id < r.trees.length, q.isOpen id → r.isOpen id
  generation : ∀ id, (r.tree id).generation ≤ (q.tree id).generation

theorem Ages.refl (r : Registry) : r.Ages r :=
  ⟨Nat.le_refl _, fun _ _ h => h, fun _ => Nat.le_refl _⟩

theorem ages_newHandle : r.Ages { r with nextHandle := r.nextHandle + 1 } :=
  ⟨Nat.le_refl _, fun _ _ h => h, fun _ => Nat.le_refl _⟩

theorem ages_update (hh : (f (r.tree id)).handle = (r.tree id).handle)
    (hc : (f (r.tree id)).closed = (r.tree id).closed)
    (hg : (r.tree id).generation ≤ (f (r.tree id)).generation) : r.Ages (r.update id f) := by
  refine ⟨Nat.le_of_eq length_trees_update.symm, ?_, ?_⟩
  · intro other _ h
    rwa [isOpen_update hh hc] at h
  · intro other
    rcases tree_update_cases r id other f with he | ⟨rfl, he⟩
    · exact Nat.le_of_eq (congrArg Tree.generation he.symm)
    · rw [he]
      exact hg

theorem ages_updateNode {ref : NodeRef} {f : Node → Node}
    (hc : (r.tree ref.tree).IsCurrent ref.place) : r.Ages (r.updateNode ref f) :=
  ages_update Tree.handle_modify Tree.closed_modify (Nat.le_of_eq (Tree.generation_modify hc).symm)

theorem Sound.ages_without (hr : r.Sound) {handle : Int} (hs : r.slots.get? handle = some id)
    (kind : TreeKind) : r.Ages (r.without handle id kind) := by
  refine ⟨Nat.le_of_eq (length_trees_without ..).symm,
    fun other _ h => ((hr.isOpen_without hs kind).1 h).1, ?_⟩
  intro other
  rw [tree_without]
  exact Nat.le_of_eq (tree_update_of_keeps Tree.generation rfl).symm

theorem ages_including {t : Tree} (hc : t.closed = false)
    (hnew : ∀ id < r.trees.length, (r.tree id).handle < t.handle) (kind : TreeKind) :
    r.Ages (r.including t kind) := by
  refine ⟨?_, ?_, ?_⟩
  · rw [trees_including, List.length_append]
    exact Nat.le_add_right ..
  · intro other hlt h
    rcases (isOpen_including hc hnew kind).1 h with h | rfl
    · exact h
    · exact absurd hlt (Nat.lt_irrefl _)
  · intro other
    rcases tree_including_cases (r := r) t kind other with he | ⟨rfl, -⟩
    · exact Nat.le_of_eq (congrArg Tree.generation he.symm)
    · rw [tree_of_length_le (Nat.le_refl _)]
      exact Nat.zero_le _

/-! ### The nodes of trees -/

/-- Two registries in which the trees have the same nodes. -/
structure SameNodes (r q : Registry) : Prop where
  root : ∀ id, (q.tree id).root = (r.tree id).root
  former : ∀ id, (q.tree id).former = (r.tree id).former
  direction : ∀ id, (q.tree id).direction = (r.tree id).direction

theorem SameNodes.node? {q : Registry} (h : r.SameNodes q) (p : Place) :
    (q.tree id).node? p = (r.tree id).node? p := by
  unfold Tree.node? Tree.generation
  rw [h.root, h.former]

theorem SameNodes.generation {q : Registry} (h : r.SameNodes q) :
    (q.tree id).generation = (r.tree id).generation := congrArg List.length (h.former id)

theorem sameNodes_of_trees {q : Registry} (h : q.trees = r.trees) : r.SameNodes q := by
  have ht (id : TreeId) : q.tree id = r.tree id := by rw [tree, tree, h]
  exact ⟨fun id => by rw [ht], fun id => by rw [ht], fun id => by rw [ht]⟩

theorem sameNodes_update (h : ∀ t, (f t).root = t.root ∧ (f t).former = t.former ∧
    (f t).direction = t.direction) : r.SameNodes (r.update id f) :=
  ⟨fun _ => tree_update_of_keeps Tree.root (h _).1,
    fun _ => tree_update_of_keeps Tree.former (h _).2.1,
    fun _ => tree_update_of_keeps Tree.direction (h _).2.2⟩

theorem sameNodes_without (handle : Int) (id : TreeId) (kind : TreeKind) :
    r.SameNodes (r.without handle id kind) := by
  have h : r.SameNodes (r.update id Tree.close) := sameNodes_update fun t => ⟨rfl, rfl, rfl⟩
  refine ⟨?_, ?_, ?_⟩
  · intro other
    rw [tree_without, h.root]
  · intro other
    rw [tree_without, h.former]
  · intro other
    rw [tree_without, h.direction]

/-- All trees are what trees are like. -/
def Grown (r : Registry) : Prop := ∀ id, (r.tree id).Grown

theorem grown_empty : empty.Grown := fun _ => Tree.grown_vacant

theorem Grown.of_sameNodes {q : Registry} (h : r.Grown) (hq : r.SameNodes q) : q.Grown := by
  intro id
  obtain ⟨hk, hd, hf⟩ := h id
  exact ⟨hq.direction id ▸ hk, hq.root id ▸ hd, hq.root id ▸ hq.direction id ▸ hf⟩

theorem Grown.update (h : r.Grown) (hf : (f (r.tree id)).Grown) : (r.update id f).Grown := by
  intro other
  rcases tree_update_cases r id other f with he | ⟨rfl, he⟩
  · rw [he]
    exact h other
  · rw [he]
    exact hf

theorem Grown.including (h : r.Grown) {t : Tree} (ht : t.Grown) (kind : TreeKind) :
    (r.including t kind).Grown := by
  intro id
  rcases tree_including_cases (r := r) t kind id with he | ⟨-, he⟩
  · rw [he]
    exact h id
  · rw [he]
    exact ht

end Registry

end SymbolTrees
