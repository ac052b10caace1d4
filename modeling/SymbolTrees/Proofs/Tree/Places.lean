import SymbolTrees.Proofs.Tree.Nodes

/-!
# Places of a tree

When everything below the root is cut off, the nodes there stay at their places, and a change at a
place of the tree is seen at no other place.
-/

namespace SymbolTrees

/-- Two places of a tree at which there is one node: the root is in every generation. -/
def Place.Same (p q : Place) : Prop :=
  p.path = q.path ∧ (p.path = [] ∨ p.generation = q.generation)

namespace Tree

variable {t : Tree} {p q : Place} {f : Node → Node} {x : Node}

/-- The places of the nodes that are part of the tree. -/
def IsCurrent (t : Tree) (p : Place) : Prop := p.path = [] ∨ p.generation = t.generation

theorem isCurrent_iff :
    (p.path.isEmpty || p.generation == t.generation) = true ↔ t.IsCurrent p := by
  rw [IsCurrent, Bool.or_eq_true, List.isEmpty_iff, beq_iff_eq]

theorem contains_iff : t.contains p ↔ t.IsCurrent p ∧ ∃ n, t.root.at? p.path = some n := by
  rw [contains, Bool.and_eq_true, isCurrent_iff, Option.isSome_iff_exists]

theorem isCurrent_place (path : List Nat) : t.IsCurrent (t.place path) := .inr rfl

theorem node?_of_isCurrent (h : t.IsCurrent p) : t.node? p = t.root.at? p.path := by
  rw [node?, if_pos (isCurrent_iff.2 h)]

theorem node?_of_not_isCurrent (h : ¬t.IsCurrent p) :
    t.node? p = (t.former[p.generation]?).bind fun cut =>
      { t.root with children := cut }.at? p.path := by
  rw [node?, if_neg ((not_congr isCurrent_iff).2 h)]

theorem modify_of_isCurrent (h : t.IsCurrent p) :
    t.modify p f = { t with root := t.root.modifyAt f p.path } := by
  rw [modify, if_pos (isCurrent_iff.2 h)]

theorem node_of_node? (h : t.node? p = some x) : t.node p = x := by
  rw [node, h, Option.getD_some]

theorem node_of_at? (hc : t.IsCurrent p) (h : t.root.at? p.path = some x) : t.node p = x :=
  node_of_node? ((node?_of_isCurrent hc).trans h)

theorem IsCurrent.of_same (h : t.IsCurrent p) (hs : p.Same q) : t.IsCurrent q := by
  obtain ⟨hp, hg⟩ := hs
  rcases h with h | h
  · exact .inl (hp ▸ h)
  · rcases hg with hg | hg
    · exact .inl (hp ▸ hg)
    · exact .inr (hg ▸ h)

theorem IsCurrent.same (hp : t.IsCurrent p) (hq : t.IsCurrent q) (h : p.path = q.path) :
    p.Same q := by
  refine ⟨h, ?_⟩
  rcases hp with hp | hp
  · exact .inl hp
  · rcases hq with hq | hq
    · exact .inl (h.trans hq)
    · exact .inr (hp.trans hq.symm)

/-- The nodes that were cut off do not depend on the root. -/
theorem node?_of_former {root : Node} (h : ¬t.IsCurrent q) :
    { t with root := root }.node? q = t.node? q := by
  have h' : ¬({ t with root := root } : Tree).IsCurrent q := h
  rw [node?_of_not_isCurrent h, node?_of_not_isCurrent h']
  obtain ⟨i, path, hp⟩ := List.exists_cons_of_ne_nil fun hp => h (.inl hp)
  rw [hp]
  rfl

/-! ### A change at a place -/

section Change

variable (hp : t.IsCurrent p) (hf : ∀ m, t.root.at? p.path = some m → m.Becomes (f m))
include hp hf

/-- A change at one place is seen at no other: there are the same fields and the same children. -/
theorem node?_modify_of_not_same (hs : ¬p.Same q) (hx : t.node? q = some x) :
    ∃ y, (t.modify p f).node? q = some y ∧ x.Resembles y := by
  rw [modify_of_isCurrent hp]
  by_cases hq : t.IsCurrent q
  · have hq' : ({ t with root := t.root.modifyAt f p.path } : Tree).IsCurrent q := hq
    rw [node?_of_isCurrent hq] at hx
    rw [node?_of_isCurrent hq']
    exact Node.at?_modifyAt_of_ne hf (fun he => hs (hp.same hq he.symm)) hx
  · exact ⟨x, by rw [node?_of_former hq, hx], .refl x⟩

omit hf in
theorem node?_modify_same (hs : p.Same q) : (t.modify p f).node? q = (t.node? q).map f := by
  have hq := hp.of_same hs
  have hq' : ({ t with root := t.root.modifyAt f p.path } : Tree).IsCurrent q := hq
  rw [modify_of_isCurrent hp, node?_of_isCurrent hq, node?_of_isCurrent hq', ← hs.1]
  exact Node.at?_modifyAt f p.path t.root

end Change

/-- In the tree that was never made nothing is under way. -/
theorem pending_of_vacant (hx : vacant.node? p = some x) : x.pending = none := by
  by_cases hp : vacant.IsCurrent p
  · rw [node?_of_isCurrent hp] at hx
    cases hpath : p.path with
    | nil =>
      rw [hpath] at hx
      exact Option.some.inj hx ▸ rfl
    | cons i path =>
      rw [hpath, Node.at?_cons_of_leaf rfl] at hx
      cases hx
  · rw [node?_of_not_isCurrent hp] at hx
    cases hx

theorem generation_modify (hp : t.IsCurrent p) : (t.modify p f).generation = t.generation := by
  rw [modify_of_isCurrent hp]
  rfl

theorem handle_modify : (t.modify p f).handle = t.handle := by
  unfold modify
  split <;> rfl

theorem closed_modify : (t.modify p f).closed = t.closed := by
  unfold modify
  split <;> rfl

theorem direction_modify : (t.modify p f).direction = t.direction := by
  unfold modify
  split <;> rfl

/-! ### Cutting off -/

@[simp] theorem generation_discardBelowRoot : t.discardBelowRoot.generation = t.generation + 1 := by
  simp [generation, discardBelowRoot]

/-- What is cut off stays where it is. -/
theorem node?_discardBelowRoot (hq : q.path ≠ []) (hx : t.node? q = some x) :
    t.discardBelowRoot.node? q = some x := by
  obtain ⟨i, path, hpath⟩ := List.exists_cons_of_ne_nil hq
  have hlt : q.generation < t.generation + 1 := by
    by_cases hc : t.IsCurrent q
    · rcases hc with hc | hc
      · exact absurd hc hq
      · omega
    · rw [node?_of_not_isCurrent hc] at hx
      obtain ⟨cut, hcut, -⟩ := Option.bind_eq_some_iff.1 hx
      have := (List.getElem?_eq_some_iff.1 hcut).1
      unfold generation
      omega
  have hold : ¬t.discardBelowRoot.IsCurrent q := by
    rintro (h | h)
    · exact hq h
    · rw [generation_discardBelowRoot] at h
      omega
  rw [node?_of_not_isCurrent hold]
  by_cases hc : t.IsCurrent q
  · have hg : q.generation = t.former.length := hc.resolve_left hq
    have hcut : t.discardBelowRoot.former[q.generation]? = some t.root.children := by
      rw [hg]
      simp [discardBelowRoot]
    rw [node?_of_isCurrent hc, hpath] at hx
    rw [hcut, hpath]
    exact hx
  · rw [node?_of_not_isCurrent hc] at hx
    obtain ⟨cut, hcut, hx⟩ := Option.bind_eq_some_iff.1 hx
    have hcut' : t.discardBelowRoot.former[q.generation]? = some cut := by
      rw [discardBelowRoot, List.getElem?_append_left (List.getElem?_eq_some_iff.1 hcut).1, hcut]
    rw [hpath] at hx ⊢
    rw [hcut']
    exact hx

end Tree

end SymbolTrees
