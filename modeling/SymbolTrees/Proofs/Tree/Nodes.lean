import SymbolTrees.Tree.Basic

/-!
# Nodes at paths

What a change at one place does to the nodes at all places. A change that keeps the mark of a node
shows nowhere but there and below: every other node keeps its own fields and the marks of its
children (`at?_modifyAt_cases`). So a property of a node that looks no further than the marks of
its children is kept all over the tree as soon as the changed node has it (`All.modifyAt`).
-/

namespace SymbolTrees

namespace Node

/-- What a node keeps for good: what it stands for, its depth, and where its call is made. -/
def mark (n : Node) : Payload × Int × List Range := (n.payload, n.depth, n.callRanges)

/-- `b` has the fields of `a`, and children with the same marks. -/
structure Resembles (a b : Node) : Prop where
  mark : b.mark = a.mark
  expanded : b.expanded = a.expanded
  pending : b.pending = a.pending
  children : b.children.map Node.mark = a.children.map Node.mark

theorem Resembles.refl (n : Node) : n.Resembles n := ⟨rfl, rfl, rfl, rfl⟩

theorem payload_of_mark {a b : Node} (h : b.mark = a.mark) : b.payload = a.payload :=
  congrArg (·.1) h

theorem depth_of_mark {a b : Node} (h : b.mark = a.mark) : b.depth = a.depth :=
  congrArg (·.2.1) h

theorem Resembles.children_eq_nil {a b : Node} (h : a.Resembles b) :
    b.children = [] ↔ a.children = [] := by
  have hl : b.children.length = a.children.length := by
    simpa using congrArg List.length h.children
  rw [← List.length_eq_zero_iff, hl, List.length_eq_zero_iff]

/-- What a node has of the call that led to it: the item at its other end, and where it is made. -/
def call (n : Node) : Option CallItem × List Range := (n.payload.callItem?, n.callRanges)

theorem Resembles.calls {a b : Node} (h : a.Resembles b) :
    b.children.map call = a.children.map call := by
  have he : call = (fun m : Payload × Int × List Range => (m.1.callItem?, m.2.2)) ∘ Node.mark :=
    rfl
  rw [he, ← List.map_map, ← List.map_map, h.children]

/-- `b` is `a` with other fields, or `a` got children that it did not have. -/
structure Becomes (a b : Node) : Prop where
  mark : b.mark = a.mark
  children : b.children = a.children ∨ a.children = []

/-! ### Paths -/

@[simp] theorem at?_nil (n : Node) : n.at? [] = some n := rfl

theorem at?_cons (n : Node) (i : Nat) (path : List Nat) :
    n.at? (i :: path) = (n.children[i]?).bind (·.at? path) := rfl

theorem at?_append (n : Node) (p q : List Nat) : n.at? (p ++ q) = (n.at? p).bind (·.at? q) := by
  induction p generalizing n with
  | nil => rfl
  | cons i p ih =>
    rw [List.cons_append, at?_cons, at?_cons]
    cases n.children[i]? with
    | none => rfl
    | some c => exact ih c

/-- Where there are no children, no path leads on. -/
theorem at?_cons_of_leaf {n : Node} (h : n.children = []) (i : Nat) (path : List Nat) :
    n.at? (i :: path) = none := by
  rw [at?_cons, h]
  rfl

/-! ### A change at a path -/

section Change

variable {f : Node → Node} {p q : List Nat} {n x y : Node}

theorem mark_modifyAt (hf : ∀ m, n.at? p = some m → (f m).mark = m.mark) :
    (modifyAt f p n).mark = n.mark := by
  cases p with
  | nil => exact hf n rfl
  | cons i p => rfl

theorem at?_modifyAt_cons (i : Nat) :
    (modifyAt f (i :: p) n).at? (i :: q) =
      (n.children[i]?).bind fun c => (modifyAt f p c).at? q := by
  rw [at?_cons, modifyAt, List.getElem?_modify_eq]
  cases n.children[i]? with
  | none => rfl
  | some c => rfl

theorem at?_modifyAt_cons_of_ne {i j : Nat} (h : i ≠ j) :
    (modifyAt f (i :: p) n).at? (j :: q) = n.at? (j :: q) := by
  simp [modifyAt, at?_cons, h]

/-- Above the changed node only its ancestors hold new children, with the marks of the old. -/
theorem resembles_modifyAt {i : Nat} (hf : ∀ m, n.at? (i :: p) = some m → (f m).mark = m.mark) :
    n.Resembles (modifyAt f (i :: p) n) := by
  refine ⟨rfl, rfl, rfl, List.ext_getElem? fun j => ?_⟩
  by_cases hj : i = j
  · subst hj
    cases hc : n.children[i]? with
    | none => simp [modifyAt, hc]
    | some c =>
      have hm : (modifyAt f p c).mark = c.mark :=
        mark_modifyAt fun m hm => hf m (by rw [at?_cons, hc]; exact hm)
      simp [modifyAt, hc, hm]
  · simp [modifyAt, hj]

/-- **Where the nodes of a changed tree come from**: from elsewhere in the tree, from the changed
node itself, or from the children that it got. -/
theorem at?_modifyAt_cases (hf : ∀ m, n.at? p = some m → m.Becomes (f m))
    (h : (modifyAt f p n).at? q = some y) :
    (q ≠ p ∧ ∃ x, n.at? q = some x ∧ x.Resembles y) ∨
    (q = p ∧ ∃ m, n.at? p = some m ∧ y = f m) ∨
    ∃ m i rest, n.at? p = some m ∧ m.children = [] ∧ q = p ++ i :: rest ∧
      (f m).at? (i :: rest) = some y := by
  induction p generalizing n q with
  | nil =>
    obtain ⟨-, hc⟩ := hf n rfl
    cases q with
    | nil => exact .inr (.inl ⟨rfl, n, rfl, (Option.some.inj h).symm⟩)
    | cons j q =>
      rcases hc with hc | hc
      · refine .inl ⟨by simp, y, ?_, .refl y⟩
        rwa [at?_cons, ← hc, ← at?_cons]
      · exact .inr (.inr ⟨n, j, q, rfl, hc, rfl, h⟩)
  | cons i p ih =>
    cases q with
    | nil =>
      obtain rfl := Option.some.inj h
      exact .inl ⟨by simp, n, rfl, resembles_modifyAt fun m hm => (hf m hm).mark⟩
    | cons j q =>
      by_cases hj : i = j
      · subst hj
        rw [at?_modifyAt_cons] at h
        cases hc : n.children[i]? with
        | none => rw [hc] at h; cases h
        | some c =>
          rw [hc] at h
          have hf' : ∀ m, c.at? p = some m → m.Becomes (f m) := fun m hm =>
            hf m (by rw [at?_cons, hc]; exact hm)
          rcases ih hf' h with ⟨hne, x, hx, hr⟩ | ⟨rfl, m, hm, rfl⟩ | ⟨m, k, rest, hm, hl, rfl, hy⟩
          · exact .inl ⟨by simpa using hne, x, by rw [at?_cons, hc]; exact hx, hr⟩
          · exact .inr (.inl ⟨rfl, m, by rw [at?_cons, hc]; exact hm, rfl⟩)
          · exact .inr (.inr ⟨m, k, rest, by rw [at?_cons, hc]; exact hm, hl, rfl, hy⟩)
      · rw [at?_modifyAt_cons_of_ne hj] at h
        exact .inl ⟨by simp [Ne.symm hj], y, h, .refl y⟩

/-- A change that keeps the marks leaves every other node where it is. -/
theorem at?_modifyAt_of_ne (hf : ∀ m, n.at? p = some m → m.Becomes (f m)) (hne : q ≠ p)
    (h : n.at? q = some x) : ∃ y, (modifyAt f p n).at? q = some y ∧ x.Resembles y := by
  induction p generalizing n q with
  | nil =>
    obtain ⟨-, hc⟩ := hf n rfl
    cases q with
    | nil => exact absurd rfl hne
    | cons j q =>
      rcases hc with hc | hc
      · refine ⟨x, ?_, .refl x⟩
        rwa [modifyAt, at?_cons, hc, ← at?_cons]
      · rw [at?_cons_of_leaf hc] at h
        cases h
  | cons i p ih =>
    cases q with
    | nil =>
      obtain rfl := Option.some.inj h
      exact ⟨_, rfl, resembles_modifyAt fun m hm => (hf m hm).mark⟩
    | cons j q =>
      by_cases hj : i = j
      · subst hj
        rw [at?_modifyAt_cons]
        cases hc : n.children[i]? with
        | none => rw [at?_cons, hc] at h; cases h
        | some c =>
          rw [at?_cons, hc] at h
          exact ih (fun m hm => hf m (by rw [at?_cons, hc]; exact hm)) (by simpa using hne) h
      · rw [at?_modifyAt_cons_of_ne hj]
        exact ⟨x, h, .refl x⟩

end Change

/-! ### Properties of all nodes of a tree -/

/-- Every node of the tree has the property. -/
def All (Φ : Node → Prop) (n : Node) : Prop := ∀ path m, n.at? path = some m → Φ m

/-- A property that looks no further than the marks of the children. -/
def IsNear (Φ : Node → Prop) : Prop := ∀ a b : Node, a.Resembles b → Φ a → Φ b

theorem All.root {Φ : Node → Prop} {n : Node} (h : n.All Φ) : Φ n := h [] n rfl

theorem All.sub {Φ : Node → Prop} {n m : Node} {p : List Nat} (h : n.All Φ)
    (hm : n.at? p = some m) : m.All Φ := fun q x hx =>
  h (p ++ q) x (by rw [at?_append, hm]; exact hx)

theorem All.mono {Φ Ψ : Node → Prop} {n : Node} (h : n.All Φ) (hΦ : ∀ m, Φ m → Ψ m) : n.All Ψ :=
  fun path m hm => hΦ m (h path m hm)

theorem all_iff {Φ : Node → Prop} {n : Node} :
    n.All Φ ↔ Φ n ∧ ∀ c ∈ n.children, c.All Φ := by
  constructor
  · intro h
    refine ⟨h.root, ?_⟩
    intro c hc
    obtain ⟨i, hi⟩ := List.mem_iff_getElem?.1 hc
    exact h.sub (p := [i]) (by rw [at?_cons, hi]; rfl)
  · rintro ⟨hn, hc⟩ path m hm
    cases path with
    | nil => exact Option.some.inj hm ▸ hn
    | cons i path =>
      rw [at?_cons] at hm
      obtain ⟨c, hi, hm⟩ := Option.bind_eq_some_iff.1 hm
      exact hc c (List.mem_of_getElem? hi) path m hm

theorem all_leaf {Φ : Node → Prop} {n : Node} (hl : n.children = []) (h : Φ n) : n.All Φ :=
  all_iff.2 ⟨h, by simp [hl]⟩

/-- A change keeps a property of all nodes if the changed node has it, with all that it got. -/
theorem All.modifyAt {Φ : Node → Prop} (hΦ : IsNear Φ) {f : Node → Node} {p : List Nat} {n : Node}
    (h : n.All Φ) (hf : ∀ m, n.at? p = some m → m.Becomes (f m))
    (hm : ∀ m, n.at? p = some m → Φ (f m))
    (hc : ∀ m, n.at? p = some m → m.children = [] → ∀ c ∈ (f m).children, c.All Φ) :
    (Node.modifyAt f p n).All Φ := by
  intro q y hy
  rcases at?_modifyAt_cases hf hy with
    ⟨-, x, hx, hr⟩ | ⟨-, m, hp, rfl⟩ | ⟨m, i, rest, hp, hl, -, hy⟩
  · exact hΦ x y hr (h q x hx)
  · exact hm m hp
  · rw [at?_cons] at hy
    obtain ⟨c, hi, hy⟩ := Option.bind_eq_some_iff.1 hy
    exact hc m hp hl c (List.mem_of_getElem? hi) rest y hy

end Node

end SymbolTrees
