import SymbolTrees.Proofs.Session.Occurs
import SymbolTrees.Proofs.Session.Operations

/-!
# The forest

What the open trees of a session are like after every run: depths count from the root, no node is
at two places, and what nodes stand for, show and wait for goes with the direction of their tree.
-/

namespace SymbolTrees

namespace Registry

variable {r : Registry} {id : TreeId}

/-- The open trees are those that are open. -/
theorem mem_openTrees_iff (h : r.Sound) : id ∈ r.openTrees ↔ r.isOpen id := by
  constructor
  · intro hm
    obtain ⟨⟨handle, id⟩, hs, rfl⟩ := List.mem_map.1 hm
    exact h.isOpen_of_slot (Table.get?_of_mem h.distinct hs)
  · intro ho
    exact List.mem_map.2 ⟨_, Table.mem_of_get? (isOpen_iff.1 ho).2, rfl⟩

/-- No tree is open twice. -/
theorem nodup_openTrees (h : r.Sound) : r.openTrees.Nodup := by
  have handle {entry : Int × TreeId} (he : entry ∈ r.slots) :
      (r.tree entry.2).handle = entry.1 :=
    (h.slots _ _ (Table.get?_of_mem h.distinct he)).2.1
  refine List.Nodup.map_on (fun a ha b hb he => ?_) (List.Nodup.of_map _ h.distinct)
  exact Prod.ext ((handle ha).symm.trans ((congrArg _ (congrArg _ he)).trans (handle hb))) he

end Registry

namespace Session

variable {s : Session} {id : TreeId} {ref : NodeRef} {path : List Nat} {n : Node}

/-- What the open trees are like. -/
structure Forest (s : Session) : Prop where
  /-- The root is at depth zero. -/
  root : ∀ id, s.isOpen id → (s.tree id).root.depth = 0
  /-- A child is one deeper than its parent. -/
  child : ∀ id path n c, s.Occurs id path n → c ∈ n.children → c.depth = n.depth + 1
  /-- Only the root is at depth zero. -/
  isRoot : ∀ id path n, s.Occurs id path n → (n.depth = 0 ↔ path = [])
  /-- The trees that are listed as open are those that are open, and none is listed twice. -/
  listed : ∀ id, id ∈ s.registry.openTrees ↔ s.isOpen id
  single : s.registry.openTrees.Nodup
  /-- What is changed at one place of an open tree is seen at no other, neither there nor in
  another tree. -/
  apart : ∀ id ref f other path n, s.Member id ref → (∀ m, Node.Becomes m (f m)) →
    s.Occurs other path n → ¬(other = id ∧ path = ref.place.path) →
      ∃ m, ((s.registry.updateNode ref f).tree other).root.at? path = some m ∧ n.Resembles m
  /-- In a tree of calls every node can be asked for more. -/
  item : ∀ id path n, s.Occurs id path n → (s.tree id).isCallTree → n.payload.callItem?.isSome
  /-- An opened node of a tree of calls has something below it. -/
  opened : ∀ id path n, s.Occurs id path n → (s.tree id).isCallTree → n.expanded →
    n.children ≠ []
  /-- A node that waits has nothing below it and is not opened. -/
  waiting : ∀ id path n, s.Occurs id path n → (s.tree id).isCallTree → n.pending ≠ none →
    n.children = [] ∧ n.expanded = false
  /-- No node of an outline can be asked for more, and none waits. -/
  outline : ∀ id path n, s.Occurs id path n → ¬(s.tree id).isCallTree →
    n.payload.callItem? = none ∧ n.pending = none

/-- What is changed at a place is seen there alone. -/
theorem Sound.apart (h : s.Sound) (hm : s.Member id ref) {f : Node → Node}
    (hf : ∀ m, Node.Becomes m (f m)) {other : TreeId} (ho : s.Occurs other path n)
    (hne : ¬(other = id ∧ path = ref.place.path)) :
    ∃ m, ((s.registry.updateNode ref f).tree other).root.at? path = some m ∧ n.Resembles m := by
  have hs := h.stands hm
  obtain rfl := hm.tree
  by_cases hid : other = ref.tree
  · subst hid
    have ht : (s.registry.updateNode ref f).tree ref.tree =
        { s.tree ref.tree with root := (s.tree ref.tree).root.modifyAt f ref.place.path } :=
      (Registry.tree_updateNode_self hs.planted).trans (Tree.modify_of_isCurrent hs.current)
    rw [ht]
    exact Node.at?_modifyAt_of_ne (fun m _ => hf m) (fun hp => hne ⟨rfl, hp⟩) ho.found
  · have he : (s.registry.updateNode ref f).tree other = s.registry.tree other :=
      Registry.tree_update_of_ne hid
    rw [he]
    exact ⟨n, ho.found, .refl n⟩

theorem Sound.forest (h : s.Sound) : s.Forest where
  root id _ := (h.grown id).depth
  child id path n c ho hc := (h.fits ho).depths c hc
  isRoot id path n ho := by
    rw [(h.grown id).depth_at? ho.found, Int.natCast_eq_zero, List.length_eq_zero_iff]
  listed id := Registry.mem_openTrees_iff h.registry
  single := Registry.nodup_openTrees h.registry
  apart id ref f other path n hm hf ho hne := h.apart hm hf ho hne
  item id path n ho hc := (h.fits ho).item.trans hc
  opened id path n ho hc he := (h.fits ho).opened hc he
  waiting id path n ho hc hw := ((h.fits ho).waiting hw).2
  outline id path n ho hc := by
    refine ⟨?_, by_contra fun hw => hc ((h.fits ho).waiting hw).1⟩
    rw [← Option.not_isSome_iff_eq_none, (h.fits ho).item]
    exact hc

/-- **After every run the open trees are a forest as it should be**, whatever arrived in whatever
order, and also where operations failed. -/
theorem forest_steps (client : Client) (settings : Settings) (root : Path) (now : Number)
    (events : List Event) : ((start client settings root now).steps events).Forest :=
  ((sound_start client settings root now).steps events).forest

end Session

end SymbolTrees
