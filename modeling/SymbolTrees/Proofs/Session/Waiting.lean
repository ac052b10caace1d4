import SymbolTrees.Proofs.Registry
import SymbolTrees.Session.Basic

/-!
# Nodes and their requests

A request for the nodes below a node and that node name each other: the node holds the number of
the request, and the request the place of the node. That stays so also for nodes that were cut off
and for trees that were closed; a node that is part of its tree can hold the number of a request
that is gone, but of no request for another node.
-/

namespace SymbolTrees

variable {r q : Registry} {pending : Table Token Inquiry} {next token : Token}

/-- The request `token`, made for a place of a tree in a generation and a direction, and the node
there belong together. -/
structure Tree.Bound (t : Tree) (token : Token) (p : Place) (generation : Nat)
    (direction : CallDirection) : Prop where
  past : generation ≤ t.generation
  below : p.path ≠ [] → p.generation = generation
  root : p.path = [] → generation = t.generation
  node : ∃ n, t.node? p = some n ∧ n.pending = some token
  direction : generation = t.generation → t.direction = .calls direction

/-- The requests and the nodes agree. -/
structure Waiting (r : Registry) (pending : Table Token Inquiry) (next : Token) : Prop where
  distinct : (pending.map Prod.fst).Nodup
  own : ∀ t inquiry, pending.get? t = some inquiry → inquiry.token = t ∧ t < next
  bound : ∀ t inquiry id ref generation direction, pending.get? t = some inquiry →
    inquiry.purpose = .expand id ref generation direction →
      ref.tree = id ∧ (r.tree id).Bound t ref.place generation direction
  nodes : ∀ id path n t, (r.tree id).root.at? path = some n → n.pending = some t →
    t < next ∧ ∀ inquiry, pending.get? t = some inquiry → ∃ ref direction,
      inquiry.purpose = .expand id ref (r.tree id).generation direction ∧ ref.place.path = path

/-- How a node may change while requests are under way: it waits on as it did, or it waited for
nothing that is under way and does so after. -/
structure Inquiry.Allows (pending : Table Token Inquiry) (next : Token) (m n : Node) : Prop where
  becomes : m.Becomes n
  waits : n.pending = m.pending ∨ (∀ t, m.pending = some t → pending.get? t = none) ∧
    ∀ t, n.pending = some t → t < next ∧ pending.get? t = none
  children : m.children = [] → ∀ c ∈ n.children, c.All (·.pending = none)

namespace Tree.Bound

variable {t : Tree} {p : Place} {generation : Nat} {direction : CallDirection}

theorem isCurrent (h : t.Bound token p generation direction) (hg : generation = t.generation) :
    t.IsCurrent p := by
  by_cases hp : p.path = []
  · exact .inl hp
  · exact .inr ((h.below hp).trans hg)

theorem pending_node (h : t.Bound token p generation direction) :
    (t.node p).pending = some token := by
  obtain ⟨n, hn, hp⟩ := h.node
  rw [Tree.node_of_node? hn, hp]

theorem turned (h : t.Bound token p generation direction) (hidle : t.root.pending = none)
    (d : CallDirection) : (t.turned d).Bound token p generation direction := by
  obtain ⟨n, hn, hw⟩ := h.node
  have hpath : p.path ≠ [] := by
    intro hnil
    rw [Tree.node?_of_isCurrent (.inl hnil), hnil] at hn
    obtain rfl := Option.some.inj hn
    rw [hidle] at hw
    cases hw
  have hpast := h.past
  refine ⟨?_, h.below, fun hnil => absurd hnil hpath, ⟨n, Tree.node?_turned d hpath hn, hw⟩, ?_⟩
  · rw [Tree.generation_turned]
    omega
  · intro hg
    rw [Tree.generation_turned] at hg
    omega

end Tree.Bound

namespace Waiting

theorem empty : Waiting .empty [] next := by
  refine ⟨List.nodup_nil, fun _ _ h => (by cases h), fun _ _ _ _ _ _ h => (by cases h), ?_⟩
  intro id path n t hn hp
  cases path with
  | nil =>
    obtain rfl := Option.some.inj hn
    cases hp
  | cons i path => cases hn

variable (h : Waiting r pending next)
include h

/-- Nobody waits in a tree that was never planted. -/
theorem planted {t : Token} {inquiry : Inquiry} {id : TreeId} {ref : NodeRef} {generation : Nat}
    {direction : CallDirection} (hi : pending.get? t = some inquiry)
    (hp : inquiry.purpose = .expand id ref generation direction) : id < r.trees.length := by
  obtain ⟨-, hb⟩ := h.bound t inquiry id ref generation direction hi hp
  obtain ⟨n, hn, hw⟩ := hb.node
  by_contra hge
  rw [Registry.tree_of_length_le (Nat.le_of_not_lt hge)] at hn
  rw [Tree.pending_of_vacant hn] at hw
  cases hw

/-! ### Changes of the table -/

theorem mono {later : Token} (hle : next ≤ later) : Waiting r pending later :=
  ⟨h.distinct, fun t inquiry hi => (h.own t inquiry hi).imp_right (Int.lt_of_lt_of_le · hle),
    h.bound, fun id path n t hn hp =>
      (h.nodes id path n t hn hp).imp_left (Int.lt_of_lt_of_le · hle)⟩

theorem get?_next : pending.get? next = none := by
  cases hi : pending.get? next with
  | none => rfl
  | some inquiry => exact absurd (h.own next inquiry hi).2 (Int.lt_irrefl _)

/-- A request is removed. -/
theorem filter (keep : Token → Bool) :
    Waiting r (pending.filter fun entry => keep entry.1) next := by
  refine ⟨Table.nodup_filter h.distinct, ?_, ?_, ?_⟩
  · intro t inquiry hi
    exact h.own t inquiry (Table.of_get?_filter keep hi).2
  · intro t inquiry id ref g d hi
    exact h.bound t inquiry id ref g d (Table.of_get?_filter keep hi).2
  · intro id path n t hn hp
    obtain ⟨hlt, hb⟩ := h.nodes id path n t hn hp
    exact ⟨hlt, fun inquiry hi => hb inquiry (Table.of_get?_filter keep hi).2⟩

theorem erase (t : Token) : Waiting r (pending.erase t) next := by
  have he : pending.erase t = pending.filter fun entry => decide (entry.1 ≠ t) := rfl
  rw [he]
  exact h.filter fun k => decide (k ≠ t)

/-- A request is changed that stays what it is for. -/
theorem put {t : Token} {old new : Inquiry} (hold : pending.get? t = some old)
    (htoken : new.token = old.token) (hpurpose : new.purpose = old.purpose) :
    Waiting r (pending.put t new) next := by
  have hput {k : Token} {inquiry : Inquiry} (hi : Table.get? (pending.put t new) k = some inquiry) :
      ∃ was, pending.get? k = some was ∧ inquiry.token = was.token ∧
        inquiry.purpose = was.purpose := by
    rcases Table.of_get?_put hi with ⟨rfl, rfl⟩ | ⟨-, hi⟩
    · exact ⟨old, hold, htoken, hpurpose⟩
    · exact ⟨inquiry, hi, rfl, rfl⟩
  refine ⟨Table.nodup_put h.distinct, ?_, ?_, ?_⟩
  · intro k inquiry hi
    obtain ⟨was, hw, ht, -⟩ := hput hi
    rw [ht]
    exact h.own k was hw
  · intro k inquiry id ref g d hi hp
    obtain ⟨was, hw, -, he⟩ := hput hi
    exact h.bound k was id ref g d hw (he ▸ hp)
  · intro id path n k hn hp
    obtain ⟨hlt, hb⟩ := h.nodes id path n k hn hp
    refine ⟨hlt, ?_⟩
    intro inquiry hi
    obtain ⟨was, hw, -, he⟩ := hput hi
    obtain ⟨ref, d, hp, hpath⟩ := hb was hw
    exact ⟨ref, d, he ▸ hp, hpath⟩

/-- A request is entered that is for no node. -/
theorem inquire {inquiry : Inquiry} (htoken : inquiry.token = next)
    (hpurpose : ∀ id ref g d, inquiry.purpose ≠ .expand id ref g d) :
    Waiting r (pending.put next inquiry) (next + 1) := by
  refine ⟨Table.nodup_put h.distinct, ?_, ?_, ?_⟩
  · intro k other hi
    rcases Table.of_get?_put hi with ⟨rfl, rfl⟩ | ⟨-, hi⟩
    · exact ⟨htoken, Int.lt_succ _⟩
    · exact ⟨(h.own k other hi).1, Int.lt_trans (h.own k other hi).2 (Int.lt_succ _)⟩
  · intro k other id ref g d hi hp
    rcases Table.of_get?_put hi with ⟨-, rfl⟩ | ⟨-, hi⟩
    · exact absurd hp (hpurpose id ref g d)
    · exact h.bound k other id ref g d hi hp
  · intro id path n k hn hp
    obtain ⟨hlt, hb⟩ := h.nodes id path n k hn hp
    refine ⟨Int.lt_trans hlt (Int.lt_succ _), ?_⟩
    intro other hi
    rcases Table.of_get?_put hi with ⟨rfl, -⟩ | ⟨-, hi⟩
    · exact absurd hlt (Int.lt_irrefl _)
    · exact hb other hi

/-- A request is entered for a node that waits for it, and for no other node. -/
theorem enter {t : Token} {inquiry : Inquiry} {id : TreeId} {ref : NodeRef} {d : CallDirection}
    (hlt : t < next) (htoken : inquiry.token = t)
    (hpurpose : inquiry.purpose = .expand id ref (r.tree id).generation d)
    (htree : ref.tree = id) (hbound : (r.tree id).Bound t ref.place (r.tree id).generation d)
    (honly : ∀ other path n, (r.tree other).root.at? path = some n → n.pending = some t →
      other = id ∧ path = ref.place.path) : Waiting r (pending.put t inquiry) next := by
  refine ⟨Table.nodup_put h.distinct, ?_, ?_, ?_⟩
  · intro k other hi
    rcases Table.of_get?_put hi with ⟨rfl, rfl⟩ | ⟨-, hi⟩
    · exact ⟨htoken, hlt⟩
    · exact h.own k other hi
  · intro k other i rf g e hi hp
    rcases Table.of_get?_put hi with ⟨rfl, rfl⟩ | ⟨-, hi⟩
    · obtain ⟨rfl, rfl, rfl, rfl⟩ := Purpose.expand.inj (hpurpose.symm.trans hp)
      exact ⟨htree, hbound⟩
    · exact h.bound k other i rf g e hi hp
  · intro i path n k hn hp
    obtain ⟨hlt', hb⟩ := h.nodes i path n k hn hp
    refine ⟨hlt', ?_⟩
    intro other hi
    rcases Table.of_get?_put hi with ⟨rfl, rfl⟩ | ⟨-, hi⟩
    · obtain ⟨rfl, rfl⟩ := honly i path n hn hp
      exact ⟨ref, d, hpurpose, rfl⟩
    · exact hb other hi

/-! ### Changes of the trees -/

theorem of_sameNodes (hq : r.SameNodes q) : Waiting q pending next := by
  refine ⟨h.distinct, h.own, ?_, ?_⟩
  · intro t inquiry id ref g d hi hp
    obtain ⟨htree, hpast, hbelow, hroot, hnode, hdir⟩ := h.bound t inquiry id ref g d hi hp
    rw [← hq.node?] at hnode
    rw [← hq.generation] at hpast hroot hdir
    rw [← hq.direction] at hdir
    exact ⟨htree, hpast, hbelow, hroot, hnode, hdir⟩
  · intro id path n t hn hp
    rw [hq.root] at hn
    rw [hq.generation]
    exact h.nodes id path n t hn hp

/-- A tree is planted in which nothing is under way. -/
theorem including {t : Tree} (ht : t.root.All (·.pending = none)) (kind : TreeKind) :
    Waiting (r.including t kind) pending next := by
  refine ⟨h.distinct, h.own, ?_, ?_⟩
  · intro k inquiry id ref g d hi hp
    obtain ⟨htree, hb⟩ := h.bound k inquiry id ref g d hi hp
    rw [Registry.tree_including_of_lt t kind (h.planted hi hp)]
    exact ⟨htree, hb⟩
  · intro id path n k hn hp
    rcases Registry.tree_including_cases (r := r) t kind id with he | ⟨-, he⟩
    · rw [he] at hn ⊢
      exact h.nodes id path n k hn hp
    · rw [he] at hn
      rw [ht path n hn] at hp
      cases hp

/-- A node changes within its tree. -/
theorem updateNode {ref : NodeRef} {f : Node → Node} (hlt : ref.tree < r.trees.length)
    (hc : (r.tree ref.tree).IsCurrent ref.place)
    (hf : ∀ m, (r.tree ref.tree).root.at? ref.place.path = some m →
      Inquiry.Allows pending next m (f m)) : Waiting (r.updateNode ref f) pending next := by
  have hb : ∀ m, (r.tree ref.tree).root.at? ref.place.path = some m → m.Becomes (f m) :=
    fun m hm => (hf m hm).becomes
  refine ⟨h.distinct, h.own, ?_, ?_⟩
  · intro t inquiry id rf g d hi hp
    obtain ⟨htree, hpast, hbelow, hroot, ⟨n, hn, hw⟩, hdir⟩ := h.bound t inquiry id rf g d hi hp
    rw [← Registry.generation_updateNode (f := f) hc] at hpast hroot hdir
    rw [← Registry.direction_updateNode ref f] at hdir
    refine ⟨htree, hpast, hbelow, hroot, ?_, hdir⟩
    by_cases hid : id = ref.tree
    · subst hid
      rw [Registry.tree_updateNode_self hlt]
      by_cases hs : ref.place.Same rf.place
      · rw [Tree.node?_modify_same hc hs, hn]
        refine ⟨f n, rfl, ?_⟩
        rw [Tree.node?_of_isCurrent (hc.of_same hs), ← hs.1] at hn
        rcases (hf n hn).waits with hk | ⟨hk, -⟩
        · rw [hk, hw]
        · rw [hk t hw] at hi
          cases hi
      · obtain ⟨y, hy, hr⟩ := Tree.node?_modify_of_not_same hc hb hs hn
        exact ⟨y, hy, hr.pending.trans hw⟩
    · have he : (r.updateNode ref f).tree id = r.tree id := Registry.tree_update_of_ne hid
      rw [he]
      exact ⟨n, hn, hw⟩
  · intro id path n t hn hp
    rw [Registry.generation_updateNode hc]
    rcases Registry.at?_updateNode_cases hlt hc hb hn with
      ⟨-, x, hx, hr⟩ | ⟨rfl, m, hm, ⟨rfl, rfl⟩ | ⟨i, rest, hl, -, hy⟩⟩
    · exact h.nodes id path x t hx (hr.pending ▸ hp)
    · rcases (hf m hm).waits with hk | ⟨-, hk⟩
      · exact h.nodes _ _ m t hm (hk ▸ hp)
      · obtain ⟨hlt', hnone⟩ := hk t hp
        refine ⟨hlt', ?_⟩
        intro inquiry hi
        rw [hnone] at hi
        cases hi
    · obtain ⟨c, hci, hy⟩ := Option.bind_eq_some_iff.1 hy
      rw [(hf m hm).children hl c (List.mem_of_getElem? hci) rest n hy] at hp
      cases hp

/-- A tree whose root waits for nothing is turned round. -/
theorem turn {id : TreeId} (hidle : (r.tree id).root.pending = none) (e : CallDirection) :
    Waiting (r.update id fun t => t.turned e) pending next := by
  refine ⟨h.distinct, h.own, ?_, ?_⟩
  · intro t inquiry other rf g d hi hp
    obtain ⟨htree, ho⟩ := h.bound t inquiry other rf g d hi hp
    refine ⟨htree, ?_⟩
    rcases Registry.tree_update_cases r id other fun t => t.turned e with he | ⟨rfl, he⟩
    · rw [he]
      exact ho
    · rw [he]
      exact ho.turned hidle e
  · intro other path n t hn hp
    rcases Registry.tree_update_cases r id other fun t => t.turned e with he | ⟨rfl, he⟩
    · rw [he] at hn ⊢
      exact h.nodes other path n t hn hp
    · rw [he] at hn
      rw [(Tree.at?_turned e hn).1] at hp
      cases hp

end Waiting

end SymbolTrees
