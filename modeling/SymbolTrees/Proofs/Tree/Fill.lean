import SymbolTrees.Proofs.Tree.Nodes

/-!
# Trees that are filled in

Nodes wait for what is to come. Where it is known what each of them will become, the tree can be
filled in at once (`Node.fill`); and filling in one node first, wherever it is, makes no difference
to that (`fill_modifyAt`).
-/

namespace SymbolTrees.Node

variable {g g' : Token → Option (Node → Node)} {f : Node → Node} {n m : Node} {p : List Nat}

mutual

/-- The tree with every node that waits for something known become what it will be. -/
def fill (g : Token → Option (Node → Node)) : Node → Node
  | ⟨payload, depth, expanded, pending, callRanges, children⟩ =>
    match pending.bind g with
    | some f => f ⟨payload, depth, expanded, pending, callRanges, children⟩
    | none => ⟨payload, depth, expanded, pending, callRanges, fillAll g children⟩

def fillAll (g : Token → Option (Node → Node)) : List Node → List Node
  | [] => []
  | node :: rest => fill g node :: fillAll g rest

end

theorem fillAll_eq_map (g : Token → Option (Node → Node)) (nodes : List Node) :
    fillAll g nodes = nodes.map (fill g) := by
  induction nodes with
  | nil => rfl
  | cons node rest ih => rw [fillAll, ih, List.map_cons]

theorem fill_of_some (h : n.pending.bind g = some f) : n.fill g = f n := by
  obtain ⟨payload, depth, expanded, pending, callRanges, children⟩ := n
  change pending.bind g = some f at h
  rw [fill, h]

theorem fill_of_none (h : n.pending.bind g = none) :
    n.fill g = { n with children := n.children.map (fill g) } := by
  obtain ⟨payload, depth, expanded, pending, callRanges, children⟩ := n
  change pending.bind g = none at h
  rw [fill, h, fillAll_eq_map]

mutual

/-- Only what the nodes of the tree wait for makes a difference. -/
theorem fill_congr : (n : Node) →
    n.All (fun m => m.pending.bind g = m.pending.bind g') → n.fill g = n.fill g'
  | ⟨payload, depth, expanded, pending, callRanges, children⟩, h => by
    obtain ⟨hroot, hc⟩ := all_iff.1 h
    have hpending : pending.bind g = pending.bind g' := hroot
    rw [fill, fill, hpending, fillAll_congr children hc]

theorem fillAll_congr : (nodes : List Node) →
    (∀ c ∈ nodes, c.All (fun m => m.pending.bind g = m.pending.bind g')) →
      fillAll g nodes = fillAll g' nodes
  | [], _ => rfl
  | node :: rest, h => by
    rw [fillAll, fillAll, fill_congr node (h node List.mem_cons_self),
      fillAll_congr rest fun c hc => h c (List.mem_cons_of_mem _ hc)]

end

mutual

/-- A tree in which nothing is known to come stays as it is. -/
theorem fill_eq_self : (n : Node) → n.All (fun m => m.pending.bind g = none) → n.fill g = n
  | ⟨payload, depth, expanded, pending, callRanges, children⟩, h => by
    obtain ⟨hroot, hc⟩ := all_iff.1 h
    have hpending : pending.bind g = none := hroot
    rw [fill, hpending, fillAll_eq_self children hc]

theorem fillAll_eq_self : (nodes : List Node) →
    (∀ c ∈ nodes, c.All (fun m => m.pending.bind g = none)) → fillAll g nodes = nodes
  | [], _ => rfl
  | node :: rest, h => by
    rw [fillAll, fill_eq_self node (h node List.mem_cons_self),
      fillAll_eq_self rest fun c hc => h c (List.mem_cons_of_mem _ hc)]

end

/-- A node that will become something does so with all below it; so no node above the changed one
is one of those. -/
theorem fill_modifyAt (hm : n.at? p = some m) (hf : (f m).fill g = m.fill g)
    (hleaf : n.All fun m => m.pending.bind g ≠ none → m.children = []) :
    (modifyAt f p n).fill g = n.fill g := by
  induction p generalizing n with
  | nil =>
    obtain rfl := Option.some.inj hm
    exact hf
  | cons i p ih =>
    rw [at?_cons] at hm
    obtain ⟨c, hc, hm⟩ := Option.bind_eq_some_iff.1 hm
    have hnone : n.pending.bind g = none := by
      cases hb : n.pending.bind g with
      | none => rfl
      | some f =>
        rw [hleaf.root (by simp [hb])] at hc
        cases hc
    have hchildren : (n.children.modify i (modifyAt f p)).map (fill g) =
        n.children.map (fill g) := by
      refine List.ext_getElem? fun j => ?_
      rw [List.getElem?_map, List.getElem?_modify, List.getElem?_map]
      split
      · rename_i hj
        subst hj
        rw [hc]
        exact congrArg some (ih hm ((all_iff.1 hleaf).2 c (List.mem_of_getElem? hc)))
      · cases n.children[j]? <;> rfl
    have hnone' : (modifyAt f (i :: p) n).pending.bind g = none := hnone
    rw [fill_of_none hnone, fill_of_none hnone']
    exact congrArg (fun children => { n with children := children }) hchildren

section Waiting

variable (hleaf : n.All fun m => m.pending.bind g ≠ none → m.children = [])
  (hg : ∀ j f, g j = some f → ∀ m : Node, m.children = [] → (f m).All (·.pending = none))
include hleaf hg

theorem all_idle_fill (h : n.pending.bind g = some f) : (n.fill g).All (·.pending = none) := by
  obtain ⟨j, -, hj⟩ := Option.bind_eq_some_iff.1 h
  rw [fill_of_some h]
  exact hg j f hj n (hleaf.root (by simp [h]))

/-- What waits in a tree that is filled in did so before, for something that is not known. -/
theorem pending_of_fill {x : Node} {k : Token} (hx : (n.fill g).at? p = some x)
    (hk : x.pending = some k) : g k = none ∧ ∃ m, n.at? p = some m ∧ m.pending = some k := by
  induction p generalizing n with
  | nil =>
    cases hb : n.pending.bind g with
    | some f =>
      rw [all_idle_fill hleaf hg hb [] x hx] at hk
      cases hk
    | none =>
      rw [fill_of_none hb] at hx
      obtain rfl := Option.some.inj hx
      have hn : n.pending = some k := hk
      rw [hn] at hb
      exact ⟨hb, n, rfl, hn⟩
  | cons i p ih =>
    cases hb : n.pending.bind g with
    | some f =>
      rw [all_idle_fill hleaf hg hb (i :: p) x hx] at hk
      cases hk
    | none =>
      rw [fill_of_none hb, at?_cons] at hx
      obtain ⟨c', hc', hx⟩ := Option.bind_eq_some_iff.1 hx
      rw [List.getElem?_map] at hc'
      obtain ⟨c, hc, rfl⟩ := Option.map_eq_some_iff.1 hc'
      obtain ⟨hnone, m, hm, hw⟩ := ih ((all_iff.1 hleaf).2 c (List.mem_of_getElem? hc)) hx
      exact ⟨hnone, m, by rw [at?_cons, hc]; exact hm, hw⟩

end Waiting

end SymbolTrees.Node
