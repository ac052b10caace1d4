import SymbolTrees.Proofs.Session.Lookups
import SymbolTrees.Proofs.Session.Move
import SymbolTrees.Proofs.Session.Waiting

/-!
# Sound sessions

What holds of a session between any two moves: the handles agree, the trees are what trees are
like, the nodes and the requests name each other, the tables of lookups mirror each other, and no
request is answered twice. Every move keeps that (`Sound.move`).
-/

namespace SymbolTrees.Session

open SymbolTrees.Server (Outcome Request)

structure Sound (s : Session) : Prop where
  registry : s.registry.Sound
  grown : s.registry.Grown
  waiting : Waiting s.registry s.pending s.nextToken
  looking : Looking s.pending s.lookups s.nextToken
  queued : Queued s.pending s.arrivals s.sent s.nextToken

theorem sound_start (client : Client) (settings : Settings) (root : Path) (now : Number) :
    (start client settings root now).Sound :=
  ⟨Registry.sound_empty, Registry.grown_empty, .empty, .empty, .empty⟩

variable {s : Session} {id : TreeId} {ref : NodeRef} {inquiry : Inquiry}

/-! ### Nodes of open trees -/

/-- The node at `ref` is part of its tree, whether that is open or not. -/
structure Stands (s : Session) (ref : NodeRef) : Prop where
  planted : ref.tree < s.registry.trees.length
  current : (s.tree ref.tree).IsCurrent ref.place
  found : (s.tree ref.tree).root.at? ref.place.path = some (s.node ref)

theorem Sound.stands (h : s.Sound) (hm : s.Member id ref) : s.Stands ref := by
  obtain ⟨ho, rfl, hc⟩ := hm
  obtain ⟨hc, n, hn⟩ := Tree.contains_iff.1 hc
  have he : s.node ref = n := Tree.node_of_at? hc hn
  exact ⟨h.registry.lt_of_isOpen ho, hc, he ▸ hn⟩

/-- How the node at `ref` may change. -/
structure Suits (s : Session) (ref : NodeRef) (n : Node) : Prop where
  allows : Inquiry.Allows s.pending s.nextToken (s.node ref) n
  fits : n.Fits (s.tree ref.tree).direction
  children : (s.node ref).children = [] →
    ∀ c ∈ n.children, c.All (Node.Fits (s.tree ref.tree).direction)

/-- A node that gets no children. -/
theorem suits_of_children {n : Node} (hm : n.mark = (s.node ref).mark)
    (hc : n.children = (s.node ref).children)
    (hw : n.pending = (s.node ref).pending ∨
      (∀ t, (s.node ref).pending = some t → s.pending.get? t = none) ∧
        ∀ t, n.pending = some t → t < s.nextToken ∧ s.pending.get? t = none)
    (hf : n.Fits (s.tree ref.tree).direction) : s.Suits ref n := by
  have hnone {c : Node} (hl : (s.node ref).children = []) (hm : c ∈ n.children) : False := by
    rw [hc, hl] at hm
    cases hm
  exact ⟨⟨⟨hm, .inl hc⟩, hw, fun hl c hm => (hnone hl hm).elim⟩, hf,
    fun hl c hm => (hnone hl hm).elim⟩

/-- A node of a tree changes as it may. -/
theorem Sound.updateNode (h : s.Sound) (hn : s.Stands ref) {f : Node → Node}
    (hf : s.Suits ref (f (s.node ref))) :
    ({ s with registry := s.registry.updateNode ref f } : Session).Sound := by
  obtain ⟨hlt, hc, hat⟩ := hn
  have hthe {m : Node} (hm : (s.tree ref.tree).root.at? ref.place.path = some m) :
      m = s.node ref := Option.some.inj (hm.symm.trans hat)
  refine ⟨h.registry.update (fun _ => Tree.handle_modify) (fun _ => Tree.closed_modify),
    h.grown.update ((h.grown ref.tree).modify hc ?_ ?_ ?_), h.waiting.updateNode hlt hc ?_,
    h.looking, h.queued⟩
  · exact fun m hm => hthe hm ▸ hf.allows.becomes
  · exact fun m hm => hthe hm ▸ hf.fits
  · exact fun m hm => hthe hm ▸ hf.children
  · exact fun m hm => hthe hm ▸ hf.allows

/-- A node that waits for nothing that is under way waits no more. -/
theorem Sound.released (h : s.Sound) (hn : s.Stands ref)
    (hidle : ∀ t, (s.node ref).pending = some t → s.pending.get? t = none) :
    (s.released ref).Sound := by
  have hfits := (h.grown ref.tree).fits _ _ hn.found
  exact h.updateNode hn (suits_of_children rfl rfl (.inr ⟨hidle, fun _ hp => by cases hp⟩)
    ⟨hfits.depths, hfits.item, hfits.opened, fun hp => absurd rfl hp⟩)

/-- A node is opened if something is below it or nothing can be asked for. -/
theorem Sound.unfolded (h : s.Sound) (hn : s.Stands ref) {expanded : Bool}
    (hk : expanded = true → (s.node ref).children ≠ [] ∨ (s.node ref).payload.callItem? = none) :
    (s.unfolded ref expanded).Sound := by
  have hfits := (h.grown ref.tree).fits _ _ hn.found
  have hcalls : (s.node ref).payload.callItem? = none →
      ¬(s.tree ref.tree).direction.calls?.isSome := fun hp hd => by
    have hi : (s.node ref).payload.callItem?.isSome = (s.tree ref.tree).direction.calls?.isSome :=
      hfits.item
    rw [hp, hd] at hi
    cases hi
  refine h.updateNode hn (suits_of_children rfl rfl (.inl rfl)
    ⟨hfits.depths, hfits.item, fun hd he => ?_, fun hp => ?_⟩)
  · rcases hk he with hl | hp
    · exact hl
    · exact absurd hd (hcalls hp)
  · obtain ⟨hd, hl, -⟩ := hfits.waiting hp
    refine ⟨hd, hl, ?_⟩
    cases expanded with
    | false => rfl
    | true =>
      rcases hk rfl with hl' | hp
      · exact absurd hl hl'
      · exact absurd hd (hcalls hp)

/-! ### Requests -/

/-- Where a request is under way for, there is a node that waits for it. -/
theorem Sound.bound (h : s.Sound) {t : Token} {generation : Nat} {direction : CallDirection}
    (hi : s.pending.get? t = some inquiry)
    (hp : inquiry.purpose = .expand id ref generation direction) :
    ref.tree = id ∧ (s.tree id).Bound t ref.place generation direction :=
  h.waiting.bound t inquiry id ref generation direction hi hp

/-- A request is alive as long as its tree is open and in the same generation. -/
theorem Sound.isLive_iff (h : s.Sound) {t : Token} {generation : Nat} {direction : CallDirection}
    (hi : s.pending.get? t = some inquiry)
    (hp : inquiry.purpose = .expand id ref generation direction) :
    s.isLive inquiry ↔ s.isOpen id ∧ (s.tree id).generation = generation := by
  obtain ⟨htree, hb⟩ := h.bound hi hp
  have hw : (s.node ref).pending = some inquiry.token := by
    rw [node, Registry.node, htree, (h.waiting.own t inquiry hi).1]
    exact hb.pending_node
  simp [isLive, hp, hw]

/-- The node that a live request is for. -/
theorem Sound.live (h : s.Sound) {t : Token} {generation : Nat} {direction : CallDirection}
    (hi : s.pending.get? t = some inquiry)
    (hp : inquiry.purpose = .expand id ref generation direction) (hl : s.isLive inquiry) :
    s.Member id ref ∧ (s.node ref).pending = some t ∧
      (s.tree id).direction = .calls direction := by
  obtain ⟨ho, hg⟩ := (h.isLive_iff hi hp).1 hl
  obtain ⟨htree, hb⟩ := h.bound hi hp
  obtain ⟨n, hn, hw⟩ := hb.node
  have hc := hb.isCurrent hg.symm
  rw [Tree.node?_of_isCurrent hc] at hn
  refine ⟨⟨ho, htree, Tree.contains_iff.2 ⟨hc, n, hn⟩⟩, ?_, hb.direction hg.symm⟩
  rw [node, Registry.node, htree]
  exact hb.pending_node

/-- The request that a node of an open tree waits for is alive. -/
theorem Sound.isLive_of_member (h : s.Sound) {t : Token} (hm : s.Member id ref)
    (hw : (s.node ref).pending = some t) (hi : s.pending.get? t = some inquiry) :
    s.isLive inquiry := by
  have hs := h.stands hm
  obtain ⟨ho, rfl, -⟩ := hm
  obtain ⟨rf, d, hp, -⟩ := (h.waiting.nodes _ _ _ t hs.found hw).2 inquiry hi
  exact (h.isLive_iff hi hp).2 ⟨ho, rfl⟩

theorem Sound.dropped (h : s.Sound) (hi : s.pending.get? inquiry.token = some inquiry) :
    (s.dropped inquiry).Sound := by
  refine ⟨h.registry, h.grown, h.waiting.erase _, h.looking.drop hi, ?_⟩
  exact h.queued.of_pending fun t other _ ho => .inr ⟨other, (Table.of_get?_erase ho).2, id⟩

theorem Sound.posted (h : s.Sound) {token : Token} {isLookup : Bool} {request : Request}
    (hlt : token < s.nextToken) (hnew : ∀ r ∈ s.sent, r.token ≠ token)
    (hc : isLookup = false → ∀ inquiry, s.pending.get? token = some inquiry → inquiry.calls = []) :
    (s.posted token isLookup request).Sound :=
  ⟨h.registry, h.grown, h.waiting, h.looking, h.queued.post s.client isLookup request hlt hnew hc⟩

/-- The next number is not one of those that something was sent with. -/
theorem Sound.ne_next (h : s.Sound) : ∀ r ∈ s.sent, r.token ≠ s.nextToken :=
  fun r hr => Int.ne_of_lt (h.queued.issued r hr)

theorem Sound.skip (h : s.Sound) : ({ s with nextToken := s.nextToken + 1 } : Session).Sound :=
  have hle : s.nextToken ≤ s.nextToken + 1 := Int.le_of_lt (Int.lt_succ _)
  ⟨h.registry, h.grown, h.waiting.mono hle, h.looking.mono hle, h.queued.mono hle⟩

/-- A request is entered that is sent next. -/
theorem Sound.entered (h : s.Sound) {t : Token} {purpose : Purpose} {deadline : Number}
    (hw : Waiting s.registry (s.entered t purpose deadline).pending s.nextToken)
    (hfresh : s.pending.get? t = none) (hnone : s.lookups.get? t = none) :
    (s.entered t purpose deadline).Sound := by
  refine ⟨h.registry, h.grown, hw, h.looking.enter hfresh hnone rfl rfl, ?_⟩
  apply h.queued.of_pending
  intro k other _ ho
  rcases Table.of_get?_put ho with ⟨-, rfl⟩ | ⟨-, ho⟩
  · exact .inl rfl
  · exact .inr ⟨other, ho, id⟩

section Ask

variable {direction : CallDirection} {item : CallItem} (h : s.Sound)
  (ha : s.Askable id ref direction item)
include h ha

theorem Sound.awaiting : (s.awaiting ref).Sound := by
  have hd : (s.tree ref.tree).direction = .calls direction := ha.member.tree ▸ ha.direction
  have hn := h.stands ha.member
  have hfits := (h.grown ref.tree).fits _ _ hn.found
  have hidle : ∀ t, (s.node ref).pending = some t → s.pending.get? t = none := fun t ht => by
    have hi := ha.idle
    simpa [isInFlight, ht, Table.contains] using hi
  have hn' : ({ s with nextToken := s.nextToken + 1 } : Session).Stands ref :=
    ⟨hn.planted, hn.current, hn.found⟩
  refine h.skip.updateNode hn'
    (suits_of_children rfl rfl (.inr ⟨hidle, fun t ht => ?_⟩)
      ⟨hfits.depths, hfits.item, hfits.opened, fun _ => ⟨?_, ha.leaf, ha.closed⟩⟩)
  · obtain rfl := Option.some.inj ht
    exact ⟨Int.lt_succ _, h.waiting.get?_next⟩
  · change (s.tree ref.tree).direction.calls?.isSome
    rw [hd]
    rfl

/-- No other node waits for the request that a node is made to wait for. -/
theorem Sound.awaiting_only {other : TreeId} {path : List Nat} {n : Node}
    (hn : ((s.awaiting ref).tree other).root.at? path = some n)
    (hp : n.pending = some s.nextToken) : other = id ∧ path = ref.place.path := by
  obtain rfl := ha.member.tree
  have hs := h.stands ha.member
  rcases Registry.at?_updateNode_cases (f := fun node => { node with pending := some s.nextToken })
    hs.planted hs.current (fun m _ => ⟨rfl, .inl rfl⟩) hn with
    ⟨-, x, hx, hr⟩ | ⟨hid, m, -, ⟨hpath, -⟩ | ⟨i, rest, hl, -, hy⟩⟩
  · have hlt := (h.waiting.nodes other path x _ hx (hr.pending ▸ hp)).1
    exact absurd hlt (Int.lt_irrefl _)
  · exact ⟨hid, hpath⟩
  · have hnone : ({ m with pending := some s.nextToken } : Node).at? (i :: rest) = none :=
      Node.at?_cons_of_leaf hl i rest
    cases hnone.symm.trans hy

/-- A node asks for the nodes below it. -/
theorem Sound.asked (deadline : Number) :
    ((s.awaiting ref).entered s.nextToken (.expand id ref (s.tree id).generation direction)
      deadline).Sound := by
  obtain rfl := ha.member.tree
  have hs := h.stands ha.member
  have hw := h.awaiting ha
  have htree : (s.awaiting ref).tree ref.tree = (s.tree ref.tree).modify ref.place
      fun node => { node with pending := some s.nextToken } :=
    Registry.tree_updateNode_self hs.planted
  have hg : ((s.awaiting ref).tree ref.tree).generation = (s.tree ref.tree).generation :=
    Registry.generation_updateNode hs.current
  have hbound : ((s.awaiting ref).tree ref.tree).Bound s.nextToken ref.place
      ((s.awaiting ref).tree ref.tree).generation direction := by
    refine ⟨Nat.le_refl _, ?_, fun _ => rfl, ?_, ?_⟩
    · intro hp
      exact (hs.current.resolve_left hp).trans hg.symm
    · rw [htree, Tree.node?_modify_same hs.current ⟨rfl, .inr rfl⟩,
        Tree.node?_of_isCurrent hs.current, hs.found]
      exact ⟨_, rfl, rfl⟩
    · intro _
      rw [htree, Tree.direction_modify, ha.direction]
  exact hw.entered (hw.waiting.enter (Int.lt_succ _) rfl (hg ▸ rfl) rfl hbound
    fun other path n hn hp => h.awaiting_only ha hn hp) h.waiting.get?_next h.looking.get?_next

end Ask

/-! ### Moves -/

theorem Sound.draw (h : s.Sound) (view : View) (buffers : Buffers) :
    ({ s with registry := s.registry.update id fun t => t.show view, buffers := buffers } :
      Session).Sound := by
  have hs : s.registry.SameNodes (s.registry.update id fun t => t.show view) :=
    Registry.sameNodes_update fun t => ⟨rfl, rfl, rfl⟩
  exact ⟨h.registry.update (fun _ => rfl) fun _ => rfl, h.grown.of_sameNodes hs,
    h.waiting.of_sameNodes hs, h.looking, h.queued⟩

theorem Sound.givenUp (h : s.Sound) (hm : s.Member id ref) : (s.givenUp ref).Sound := by
  have hn := h.stands hm
  unfold Session.givenUp
  split
  · rename_i hnone
    apply h.released hn
    intro t ht
    rw [inquiryOf, ht] at hnone
    exact hnone
  · rename_i inquiry hsome
    obtain ⟨t, ht, hi⟩ := Option.bind_eq_some_iff.1 hsome
    obtain rfl := (h.waiting.own t inquiry hi).1
    refine (h.dropped hi).released ⟨hn.planted, hn.current, hn.found⟩ ?_
    intro k hk
    obtain rfl := Option.some.inj (ht.symm.trans hk)
    exact (Table.get?_erase ..).trans (if_pos rfl)

/-- A node waits no more once its request is forgotten. -/
theorem Sound.dropped_released (h : s.Sound) (hi : s.pending.get? inquiry.token = some inquiry)
    (hn : s.Stands ref) (hw : (s.node ref).pending = some inquiry.token) :
    ((s.dropped inquiry).released ref).Sound := by
  refine (h.dropped hi).released ⟨hn.planted, hn.current, hn.found⟩ ?_
  intro t ht
  obtain rfl := Option.some.inj (hw.symm.trans ht)
  exact (Table.get?_erase ..).trans (if_pos rfl)

theorem Sound.failed (h : s.Sound) (hi : s.pending.get? inquiry.token = some inquiry)
    (hl : s.isLive inquiry) : (s.failed inquiry).Sound := by
  unfold Session.failed
  split
  · rename_i id ref generation direction hp
    obtain ⟨hm, hw, -⟩ := h.live hi hp hl
    exact h.dropped_released hi (h.stands hm) hw
  · exact h.dropped hi

/-- The node of a call stands for the item of the call, at the depth that is asked for. -/
theorem childOf_eq (depth : Int) (call : Call) (symbol : Option LocatedSymbol) :
    ∃ payload, payload.callItem? = some call.item ∧
      childOf depth call symbol = .leaf payload depth call.ranges := by
  cases symbol with
  | none => exact ⟨_, rfl, rfl⟩
  | some symbol => exact ⟨_, rfl, rfl⟩

theorem mem_childrenOf {c : Node} (hc : c ∈ s.childrenOf inquiry ref) :
    ∃ call symbol, c = childOf ((s.node ref).depth + 1) call symbol := by
  unfold childrenOf at hc
  obtain ⟨i, hi⟩ := List.mem_iff_getElem?.1 hc
  rw [List.getElem?_zipWith] at hi
  split at hi
  · rename_i call symbol _ _
    exact ⟨call, symbol, (Option.some.inj hi).symm⟩
  · cases hi

theorem Sound.grafted (h : s.Sound) {generation : Nat} {direction : CallDirection}
    (hi : s.pending.get? inquiry.token = some inquiry)
    (hp : inquiry.purpose = .expand id ref generation direction) (hl : s.isLive inquiry)
    (hc : inquiry.calls ≠ []) : (s.grafted inquiry ref).Sound := by
  obtain ⟨hm, hw, hd⟩ := h.live hi hp hl
  have hn := h.stands hm
  have hfits := (h.grown ref.tree).fits _ _ hn.found
  have hd' : (s.tree ref.tree).direction = .calls direction := hm.tree ▸ hd
  have hwaits := hfits.waiting (by rw [hw]; simp)
  have hidle : ∀ t, (s.node ref).pending = some t → (s.dropped inquiry).pending.get? t = none := by
    intro t ht
    obtain rfl := Option.some.inj (hw.symm.trans ht)
    exact (Table.get?_erase ..).trans (if_pos rfl)
  have hchild {c : Node} (hc : c ∈ s.childrenOf inquiry ref) :
      c.depth = (s.node ref).depth + 1 ∧ c.pending = none ∧ c.children = [] ∧
        c.Fits (s.tree ref.tree).direction := by
    obtain ⟨call, symbol, rfl⟩ := mem_childrenOf hc
    obtain ⟨payload, hpay, he⟩ := childOf_eq ((s.node ref).depth + 1) call symbol
    rw [he, hd']
    exact ⟨rfl, rfl, rfl, (Node.all_fits_leaf (by rw [hpay]; rfl) _ _).root⟩
  have hsome : s.childrenOf inquiry ref ≠ [] := by
    have hlen := h.looking.found _ _ hi
    intro hnil
    have := congrArg List.length hnil
    simp only [childrenOf, List.length_zipWith, hlen, Nat.min_self, List.length_nil] at this
    exact hc (List.length_eq_zero_iff.1 this)
  have hn' : (s.dropped inquiry).Stands ref := ⟨hn.planted, hn.current, hn.found⟩
  refine (h.dropped hi).updateNode hn' ⟨⟨⟨rfl, .inr hwaits.2.1⟩,
    .inr ⟨hidle, fun _ hk => by cases hk⟩, fun _ c hc => ?_⟩, ?_, fun _ c hc => ?_⟩
  · exact Node.all_leaf (hchild hc).2.2.1 (hchild hc).2.1
  · exact ⟨fun c hc => (hchild hc).1, hfits.item, fun _ _ => hsome, fun hk => absurd rfl hk⟩
  · exact Node.all_leaf (hchild hc).2.2.1 (hchild hc).2.2.2

/-- The roots that trees start from are as good as other nodes, and wait for nothing. -/
theorem Sound.seed (h : s.Sound) {direction : Direction} {root : Node}
    (hs : Seed s direction root) : root.depth = 0 ∧ root.All (Node.Fits direction) ∧
      root.All (·.pending = none) := by
  cases hs with
  | call item direction =>
    exact ⟨rfl, Node.all_fits_leaf rfl _ _, Node.all_leaf rfl rfl⟩
  | copy isOpen found =>
    exact ⟨Node.copy_depth _ _, Node.all_fits_copy (((h.grown _).fits).sub found) 0,
      Node.all_idle_copy _ _⟩
  | @outline uri entries root made =>
    obtain ⟨hd, hf⟩ := Node.all_fits_outline made
    have he : { root with depth := 0 } = root := by
      cases root
      cases hd
      rfl
    rw [he]
    exact ⟨hd, hf, hf.mono fun m hm => by_contra fun hw => by cases (hm.waiting hw).1⟩

/-- A copy of a node of an open tree starts a tree. -/
theorem Sound.seed_copy (h : s.Sound) (hm : s.Member id ref) :
    Seed s (s.tree id).direction { (s.node ref).copy 0 with depth := 0 } := by
  have hs := h.stands hm
  obtain ⟨ho, rfl, -⟩ := hm
  rw [Node.copy_at_depth]
  exact .copy ho hs.found

theorem Opens.ne_expand {purpose : Purpose} {request : Request} (h : Opens purpose request)
    (id : TreeId) (ref : NodeRef) (generation : Nat) (direction : CallDirection) :
    purpose ≠ .expand id ref generation direction := by
  cases h <;> simp

theorem Finds.length_eq {index : Nat} {outcome : Outcome} {found : List (Option LocatedSymbol)}
    (h : Finds inquiry index outcome found) : found.length = inquiry.found.length := by
  cases h with
  | same => rfl
  | symbol => exact List.length_set

/-- The calls of an answer are kept with its request, which has none before. -/
theorem Sound.answered (h : s.Sound) {token : Token} {value : Json} {rest : List Arrival}
    {calls : List Call} (arrivals : s.arrivals = .reply token (.answer value) :: rest)
    (pending : s.pending.get? token = some inquiry) :
    ({ s with
      arrivals := rest
      pending := s.pending.put token
        { inquiry with calls := calls, found := calls.map fun _ => none } } : Session).Sound := by
  have hfirst : inquiry.calls = [] :=
    h.queued.first token inquiry (.inl (arrivals ▸ List.mem_cons_self)) pending
  refine ⟨h.registry, h.grown, h.waiting.put pending rfl rfl,
    h.looking.put pending rfl (by simp [hfirst]) (by simp), ?_⟩
  apply (h.queued.take arrivals).of_pending
  intro t other ht ho
  rcases Table.of_get?_put ho with ⟨rfl, -⟩ | ⟨-, ho⟩
  · exact absurd ht (h.queued.not_awaited arrivals)
  · exact .inr ⟨other, ho, fun hc => hc⟩

/-- The symbol of a call is looked up, for which nothing is looked up yet. -/
theorem Sound.looked (h : s.Sound) {parent : Token} {index : Nat} {call : Call}
    (pending : s.pending.get? parent = some inquiry) (isCall : inquiry.calls[index]? = some call)
    (unasked : ∀ token, s.lookups.get? token ≠ some (parent, index)) :
    ((s.looking parent inquiry index).posted s.nextToken true
      (.workspaceSymbols call.item.name)).Sound := by
  have hle : s.nextToken ≤ s.nextToken + 1 := Int.le_of_lt (Int.lt_succ _)
  have hx : index < inquiry.calls.length := (List.getElem?_eq_some_iff.1 isCall).1
  have hs : (s.looking parent inquiry index).Sound :=
    ⟨h.registry, h.grown, (h.waiting.mono hle).put pending rfl rfl,
      h.looking.look pending hx (h.waiting.own _ _ pending).2 h.waiting.get?_next unasked,
      (h.queued.mono hle).of_put pending fun hc => hc⟩
  exact hs.posted (Int.lt_succ _) h.ne_next fun hf => by cases hf

/-- **Every move keeps a session sound.** -/
theorem Sound.move {t : Session} (h : s.Sound) (hm : Move s t) : t.Sound := by
  cases hm with
  | journal => exact ⟨h.registry, h.grown, h.waiting, h.looking, h.queued⟩
  | draw => exact h.draw _ _
  | @hide handle id hidden slot =>
    have hs : s.registry.SameNodes (s.registry.update id fun t => { t with hidden := hidden }) :=
      Registry.sameNodes_update fun t => ⟨rfl, rfl, rfl⟩
    exact ⟨h.registry.update (fun _ => rfl) fun _ => rfl, h.grown.of_sameNodes hs,
      h.waiting.of_sameNodes hs, h.looking, h.queued⟩
  | @close handle id kind slot isKind =>
    have hs := s.registry.sameNodes_without handle id kind
    exact ⟨h.registry.without slot kind, h.grown.of_sameNodes hs, h.waiting.of_sameNodes hs,
      h.looking, h.queued⟩
  | issue =>
    have hs := s.registry.sameNodes_of_trees
      (q := { s.registry with nextHandle := s.registry.nextHandle + 1 }) rfl
    exact ⟨h.registry.newHandle, h.grown.of_sameNodes hs, h.waiting.of_sameNodes hs, h.looking,
      h.queued⟩
  | plant issued unused seed isKind =>
    obtain ⟨hd, hf, hw⟩ := h.seed seed
    exact ⟨h.registry.including rfl issued _, h.grown.including ⟨⟨_, isKind⟩, hd, hf⟩ _,
      h.waiting.including hw _, h.looking, h.queued⟩
  | ask askable timely =>
    refine (h.asked askable _).posted (Int.lt_succ _) h.ne_next fun _ inquiry hi => ?_
    exact Option.some.inj ((Table.get?_put_self ..).symm.trans hi) ▸ rfl
  | askInVain askable untimely => exact h.awaiting askable
  | @inquire purpose request deadline opens timely =>
    have hw : Waiting s.registry (s.entered s.nextToken purpose deadline).pending
        (s.nextToken + 1) := h.waiting.inquire rfl opens.ne_expand
    refine (h.skip.entered hw h.waiting.get?_next h.looking.get?_next).posted (Int.lt_succ _)
      h.ne_next fun _ inquiry hi => ?_
    exact Option.some.inj ((Table.get?_put_self ..).symm.trans hi) ▸ rfl
  | skip => exact h.skip
  | giveUp member => exact h.givenUp member
  | unfold member known => exact h.unfolded (h.stands member) known
  | turn isOpen turned idle =>
    exact ⟨h.registry.update (fun _ => rfl) fun _ => rfl,
      h.grown.update ((h.grown _).turned _ turned), h.waiting.turn idle _, h.looking, h.queued⟩
  | ignore arrivals => exact ⟨h.registry, h.grown, h.waiting, h.looking, h.queued.take arrivals⟩
  | answer arrivals pending => exact h.answered arrivals pending
  | @rearm token inquiry deadline pending some timely =>
    have hlen := h.looking.found token inquiry pending
    exact ⟨h.registry, h.grown, h.waiting.put pending rfl rfl,
      h.looking.put pending rfl (Nat.le_refl _) hlen, h.queued.of_put pending fun hc => hc⟩
  | look pending live isCall unasked => exact h.looked pending isCall unasked
  | find arrivals lookup pending finds =>
    exact ⟨h.registry, h.grown, h.waiting.put pending rfl rfl,
      h.looking.find lookup pending finds.length_eq,
      (h.queued.take arrivals).of_put pending fun hc => hc⟩
  | drop pending ended => exact h.dropped pending
  | fail pending live => exact h.failed pending live
  | graft pending live purpose some => exact h.grafted pending purpose live some

theorem Sound.arrived (h : s.Sound) {i : Nat} {request : Sent} (outcome : Outcome)
    (hr : s.sent[i]? = some request) (ho : request.isOpen) : (s.arrived i request outcome).Sound :=
  ⟨h.registry, h.grown, h.waiting, h.looking, h.queued.settle outcome hr ho⟩

theorem Sound.ticked (h : s.Sound) (now : Number) : (s.ticked now).Sound :=
  ⟨h.registry, h.grown, h.waiting, h.looking, h.queued⟩

theorem Sound.moves {t : Session} (h : s.Sound) (hm : Moves s t) : t.Sound := by
  induction hm with
  | refl => exact h
  | tail _ hmove ih => exact ih.move hmove

end SymbolTrees.Session
