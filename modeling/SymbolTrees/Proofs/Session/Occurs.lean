import SymbolTrees.Proofs.Session.Sound

/-!
# Nodes of open trees

Where the nodes of the open trees come from when the registry changes: from where they were, from
the node that was changed, or from the root that a new tree was planted with.
-/

namespace SymbolTrees.Session

variable {s t : Session} {id other : TreeId} {ref : NodeRef} {path : List Nat} {n : Node}

/-- The node `n` is on a path of an open tree. -/
structure Occurs (s : Session) (id : TreeId) (path : List Nat) (n : Node) : Prop where
  isOpen : s.isOpen id
  found : (s.tree id).root.at? path = some n

/-- The place of a node on a path. -/
theorem Occurs.member (ho : s.Occurs id path n) : s.Member id ⟨id, (s.tree id).place path⟩ :=
  ⟨ho.isOpen, rfl, Tree.contains_iff.2 ⟨Tree.isCurrent_place path, n, ho.found⟩⟩

theorem Occurs.node (ho : s.Occurs id path n) : s.node ⟨id, (s.tree id).place path⟩ = n :=
  Tree.node_of_at? (Tree.isCurrent_place path) ho.found

theorem Member.occurs (h : s.Sound) (hm : s.Member id ref) :
    s.Occurs id ref.place.path (s.node ref) := by
  have hs := h.stands hm
  obtain rfl := hm.tree
  exact ⟨hm.isOpen, hs.found⟩

theorem Sound.fits (h : s.Sound) (ho : s.Occurs id path n) : n.Fits (s.tree id).direction :=
  (h.grown id).fits path n ho.found

theorem Occurs.of_sameNodes (ho : t.Occurs id path n) (hn : s.registry.SameNodes t.registry)
    (hopen : t.isOpen id → s.isOpen id) : s.Occurs id path n :=
  ⟨hopen ho.isOpen, (congrArg (Node.at? · path) (hn.root id)).symm.trans ho.found⟩

/-- After a node was changed. -/
theorem Occurs.of_updateNode (h : s.Sound) (hm : s.Member id ref) {f : Node → Node}
    (hf : (s.node ref).Becomes (f (s.node ref))) (ht : t.registry = s.registry.updateNode ref f)
    (ho : t.Occurs other path n) :
    (¬(other = id ∧ path = ref.place.path) ∧ ∃ x, s.Occurs other path x ∧ x.Resembles n) ∨
      other = id ∧ (path = ref.place.path ∧ n = f (s.node ref) ∨
        ∃ i rest, (s.node ref).children = [] ∧ (f (s.node ref)).at? (i :: rest) = some n) := by
  have hs := h.stands hm
  obtain rfl := hm.tree
  obtain ⟨hopen, hn⟩ := ho
  rw [Session.isOpen, ht, Registry.isOpen_updateNode] at hopen
  rw [Session.tree, ht] at hn
  have hthe {m : Node} (hm : (s.registry.tree ref.tree).root.at? ref.place.path = some m) :
      m = s.node ref := Option.some.inj (hm.symm.trans hs.found)
  rcases Registry.at?_updateNode_cases hs.planted hs.current (fun m hm => hthe hm ▸ hf) hn with
    ⟨hne, x, hx, hr⟩ | ⟨rfl, m, hm, ⟨hp, he⟩ | ⟨i, rest, hl, -, hy⟩⟩
  · exact .inl ⟨hne, x, ⟨hopen, hx⟩, hr⟩
  · obtain rfl := hthe hm
    exact .inr ⟨rfl, .inl ⟨hp, he⟩⟩
  · obtain rfl := hthe hm
    exact .inr ⟨rfl, .inr ⟨i, rest, hl, hy⟩⟩

/-- After a node was changed that keeps its children. -/
theorem Occurs.of_updateNode_of_children (h : s.Sound) (hm : s.Member id ref) {f : Node → Node}
    (hmark : (f (s.node ref)).mark = (s.node ref).mark)
    (hc : (f (s.node ref)).children = (s.node ref).children)
    (ht : t.registry = s.registry.updateNode ref f) (ho : t.Occurs other path n) :
    (¬(other = id ∧ path = ref.place.path) ∧ ∃ x, s.Occurs other path x ∧ x.Resembles n) ∨
      other = id ∧ path = ref.place.path ∧ n = f (s.node ref) := by
  rcases ho.of_updateNode h hm ⟨hmark, .inl hc⟩ ht with hx | ⟨rfl, hn | ⟨i, rest, hl, hy⟩⟩
  · exact .inl hx
  · exact .inr ⟨rfl, hn⟩
  · rw [Node.at?_cons_of_leaf (hc.trans hl)] at hy
    cases hy

/-- After a tree was planted. -/
theorem Occurs.of_including {tree : Tree} {kind : TreeKind} (hc : tree.closed = false)
    (unused : ∀ id < s.registry.trees.length, (s.tree id).handle < tree.handle)
    (ht : t.registry = s.registry.including tree kind) (ho : t.Occurs id path n) :
    s.Occurs id path n ∧ t.tree id = s.tree id ∨
      id = s.registry.trees.length ∧ t.tree id = tree ∧ tree.root.at? path = some n := by
  obtain ⟨hopen, hn⟩ := ho
  have htree : t.tree id = (s.registry.including tree kind).tree id :=
    congrArg (Registry.tree · id) ht
  rw [Session.isOpen, ht, Registry.isOpen_including hc unused] at hopen
  by_cases hid : id = s.registry.trees.length
  · subst hid
    rw [Registry.tree_including_length] at htree
    exact .inr ⟨rfl, htree, htree ▸ hn⟩
  · have he := (Registry.tree_including_cases (r := s.registry) tree kind id).resolve_right
      fun h => hid h.1
    rw [htree, he] at hn
    exact .inl ⟨⟨hopen.resolve_right hid, hn⟩, htree.trans he⟩

/-- After a tree was cut off below its root and turned round. -/
theorem Occurs.of_turned {direction : CallDirection}
    (ht : t.registry = s.registry.update id fun t => t.turned direction)
    (ho : t.Occurs other path n) :
    s.Occurs other path n ∧ t.tree other = s.tree other ∨
      n.pending = none ∧ n.children = [] := by
  obtain ⟨hopen, hn⟩ := ho
  have htree : t.tree other = (s.registry.update id fun t => t.turned direction).tree other :=
    congrArg (Registry.tree · other) ht
  rw [Session.isOpen, ht, Registry.isOpen_update rfl rfl] at hopen
  rcases Registry.tree_update_cases s.registry id other fun t => t.turned direction with
    he | ⟨-, he⟩
  · exact .inl ⟨⟨hopen, by rw [htree, he] at hn; exact hn⟩, htree.trans he⟩
  · rw [htree, he] at hn
    obtain ⟨hw, hl, -⟩ := Tree.at?_turned direction hn
    exact .inr ⟨hw, hl⟩

/-- One node waits for a request. -/
theorem Sound.occurs_unique (h : s.Sound) {k : Token} {inquiry : Inquiry} {path' : List Nat}
    {n' : Node} (hi : s.pending.get? k = some inquiry) (ho : s.Occurs id path n)
    (hw : n.pending = some k) (ho' : s.Occurs other path' n') (hw' : n'.pending = some k) :
    id = other ∧ path = path' := by
  obtain ⟨ref, d, hp, hpath⟩ := (h.waiting.nodes _ _ _ _ ho.found hw).2 inquiry hi
  obtain ⟨ref', d', hp', hpath'⟩ := (h.waiting.nodes _ _ _ _ ho'.found hw').2 inquiry hi
  rw [hp] at hp'
  obtain ⟨rfl, rfl, -⟩ := Purpose.expand.inj hp'
  exact ⟨rfl, hpath.symm.trans hpath'⟩

/-! ### Before a move -/

/-- Where a node comes from that is part of an open tree after a move. -/
inductive Origin (s t : Session) (id : TreeId) (path : List Nat) (n : Node) : Prop where
  /-- It was there with children for the same calls. If it waits, then for what it waited for or
  for what is new. -/
  | stayed {x : Node} (occurs : s.Occurs id path x) (payload : n.payload = x.payload)
    (children : n.children.map Node.call = x.children.map Node.call)
    (direction : (t.tree id).direction = (s.tree id).direction)
    (waits : ∀ k, n.pending = some k → x.pending = some k ∨ k = s.nextToken)
  /-- It is the copy of a node in a new tree, with children for the same calls. -/
  | copied {other : TreeId} {path' : List Nat} {x : Node} (planted : id = s.registry.trees.length)
    (occurs : s.Occurs other path' x) (payload : n.payload = x.payload)
    (children : n.children.map Node.call = x.children.map Node.call)
    (direction : (t.tree id).direction = (s.tree other).direction) (idle : n.pending = none)
  /-- It has nothing below it and waits for nothing. -/
  | bare (leaf : n.children = []) (idle : n.pending = none)
  /-- It is part of a new outline. -/
  | outlined (direction : (t.tree id).direction = .outline)
  /-- It is the node of a request that has ended, with the nodes that this brought. -/
  | grafted {inquiry : Inquiry} {ref : NodeRef} {generation : Nat} {direction : CallDirection}
    (pending : s.pending.get? inquiry.token = some inquiry) (live : s.isLive inquiry)
    (purpose : inquiry.purpose = .expand id ref generation direction)
    (place : ref.place.path = path) (some : inquiry.calls ≠ [])
    (payload : n.payload = (s.node ref).payload) (children : n.children = s.childrenOf inquiry ref)
    (idle : n.pending = none) (direction : (t.tree id).direction = .calls direction)

/-- A node that is where it was. -/
theorem Origin.of_resembles {x : Node} (ho : s.Occurs id path x) (hr : x.Resembles n)
    (hd : (t.tree id).direction = (s.tree id).direction) : Origin s t id path n :=
  .stayed ho (Node.payload_of_mark hr.mark) hr.calls hd fun _ hk => .inl (hr.pending ▸ hk)

theorem Origin.of_sameNodes (hn : s.registry.SameNodes t.registry)
    (hopen : t.isOpen id → s.isOpen id) (ho : t.Occurs id path n) : Origin s t id path n :=
  .of_resembles (ho.of_sameNodes hn hopen) (.refl n) (hn.direction id)

/-- A node changes that keeps its children, and waits at most for something new. -/
theorem Origin.of_updateNode (h : s.Sound) (hm : s.Member id ref) {f : Node → Node}
    (hmark : (f (s.node ref)).mark = (s.node ref).mark)
    (hc : (f (s.node ref)).children = (s.node ref).children)
    (hw : ∀ k, (f (s.node ref)).pending = some k →
      (s.node ref).pending = some k ∨ k = s.nextToken)
    (ht : t.registry = s.registry.updateNode ref f) (ho : t.Occurs other path n) :
    Origin s t other path n := by
  have hd : (t.tree other).direction = (s.tree other).direction :=
    (congrArg (fun r => (Registry.tree r other).direction) ht).trans
      (Registry.direction_updateNode ref f)
  rcases ho.of_updateNode_of_children h hm hmark hc ht with ⟨-, x, hx, hr⟩ | ⟨rfl, rfl, rfl⟩
  · exact .of_resembles hx hr hd
  · exact .stayed (hm.occurs h) (Node.payload_of_mark hmark) (congrArg _ hc) hd hw

/-- The nodes of a new tree. -/
theorem Seed.origin {direction : Direction} {root : Node} (hs : Seed s direction root)
    (hn : root.at? path = some n) (hid : id = s.registry.trees.length)
    (hd : (t.tree id).direction = direction) : Origin s t id path n := by
  cases hs with
  | call item direction =>
    cases path with
    | nil =>
      obtain rfl := Option.some.inj hn
      exact .bare rfl rfl
    | cons i path =>
      rw [Node.at?_cons_of_leaf rfl] at hn
      cases hn
  | @copy other above node isOpen found =>
    rw [Node.at?_copy] at hn
    obtain ⟨x, hx, rfl⟩ := Option.map_eq_some_iff.1 hn
    refine .copied hid ⟨isOpen, by rw [Node.at?_append, found]; exact hx⟩
      (Node.copy_payload _ x) ?_ hd (Node.copy_pending _ x)
    rw [Node.children_copy, List.map_map]
    apply List.map_congr_left
    intro c _
    exact congrArg₂ _ (congrArg _ (Node.copy_payload _ c)) (Node.copy_callRanges _ c)
  | outline made => exact .outlined hd

/-- The nodes that a request brings have nothing below them and wait for nothing. -/
theorem bare_of_childrenOf {inquiry : Inquiry} {m : Node}
    (hm : m.children = s.childrenOf inquiry ref) {i : Nat} {rest : List Nat}
    (hn : m.at? (i :: rest) = some n) :
    n.children = [] ∧ n.pending = none := by
  rw [Node.at?_cons, hm] at hn
  obtain ⟨c, hc, hn⟩ := Option.bind_eq_some_iff.1 hn
  obtain ⟨call, symbol, rfl⟩ := mem_childrenOf (List.mem_of_getElem? hc)
  obtain ⟨payload, -, he⟩ := childOf_eq ((s.node ref).depth + 1) call symbol
  rw [he] at hn
  cases rest with
  | nil =>
    obtain rfl := Option.some.inj hn
    exact ⟨rfl, rfl⟩
  | cons j rest =>
    rw [Node.at?_cons_of_leaf rfl] at hn
    cases hn

/-- **Where the nodes of the open trees come from.** -/
theorem Sound.origin (h : s.Sound) (hm : Move s t) (ho : t.Occurs id path n) :
    Origin s t id path n := by
  have same (hr : t.registry = s.registry) : Origin s t id path n := by
    refine .of_sameNodes (hr ▸ Registry.sameNodes_of_trees rfl) (fun ho => ?_) ho
    rwa [Session.isOpen, hr] at ho
  have asks {other : TreeId} {ref : NodeRef} (hm : s.Member other ref)
      (hr : t.registry = (s.awaiting ref).registry) :
      Origin s t id path n :=
    .of_updateNode h hm (f := fun node => { node with pending := some s.nextToken }) rfl rfl
      (fun k hk => .inr (Option.some.inj hk).symm) hr ho
  have idles {other : TreeId} {ref : NodeRef} (hm : s.Member other ref)
      (hr : t.registry = (s.released ref).registry) :
      Origin s t id path n :=
    .of_updateNode h hm (f := fun node => { node with pending := none }) rfl rfl
      (fun k hk => by cases hk) hr ho
  cases hm with
  | issue => exact .of_sameNodes (Registry.sameNodes_of_trees rfl) (fun ho => ho) ho
  | draw =>
    refine .of_sameNodes (Registry.sameNodes_update fun t => ⟨rfl, rfl, rfl⟩) (fun ho => ?_) ho
    rwa [Session.isOpen, Registry.isOpen_update rfl rfl] at ho
  | hide =>
    refine .of_sameNodes (Registry.sameNodes_update fun t => ⟨rfl, rfl, rfl⟩) (fun ho => ?_) ho
    rwa [Session.isOpen, Registry.isOpen_update rfl rfl] at ho
  | close slot =>
    exact .of_sameNodes (s.registry.sameNodes_without _ _ _)
      (fun ho => ((h.registry.isOpen_without slot _).1 ho).1) ho
  | plant issued unused seed =>
    rcases ho.of_including rfl unused rfl with ⟨hx, he⟩ | ⟨hid, he, hn⟩
    · exact .of_resembles hx (.refl n) (congrArg _ he)
    · exact seed.origin hn hid (congrArg _ he)
  | ask askable => exact asks askable.member rfl
  | askInVain askable => exact asks askable.member rfl
  | giveUp member => exact idles member (registry_givenUp ..)
  | unfold member =>
    exact .of_updateNode h member (f := fun node => { node with expanded := _ }) rfl rfl
      (fun k hk => .inl hk) rfl ho
  | turn =>
    rcases ho.of_turned rfl with ⟨hx, he⟩ | ⟨hw, hl⟩
    · exact .of_resembles hx (.refl n) (congrArg _ he)
    · exact .bare hl hw
  | @fail inquiry pending live =>
    cases hp : inquiry.purpose with
    | expand id ref generation direction =>
      exact idles (h.live pending hp live).1 (by rw [Session.failed, hp]; rfl)
    | _ => exact same (by rw [Session.failed, hp]; rfl)
  | @graft inquiry other ref generation direction pending live purpose some =>
    obtain ⟨hm, hw, hd⟩ := h.live pending purpose live
    have hleaf := ((h.fits (hm.occurs h)).waiting (by rw [hw]; simp)).2.1
    have hdir (other : TreeId) : ((s.grafted inquiry ref).tree other).direction =
        (s.tree other).direction := Registry.direction_updateNode ref _
    rcases ho.of_updateNode h hm (f := fun node => { node with
        children := s.childrenOf inquiry ref, expanded := true, pending := none })
        ⟨rfl, .inr hleaf⟩ rfl with ⟨-, x, hx, hr⟩ | ⟨rfl, ⟨rfl, rfl⟩ | ⟨i, rest, -, hy⟩⟩
    · exact .of_resembles hx hr (hdir id)
    · exact .grafted pending live purpose rfl some rfl rfl rfl ((hdir _).trans hd)
    · obtain ⟨hl, hw⟩ := bare_of_childrenOf rfl hy
      exact .bare hl hw
  | _ => exact same rfl

end SymbolTrees.Session
