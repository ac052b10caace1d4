import SymbolTrees.Proofs.Session.Forest

/-!
# The tables of requests

After every run the table of requests, the nodes that wait and the table of lookups agree. That
every node that waits waits for something takes one thing more: when a request is made, it can be
told until when it is kept.
-/

namespace SymbolTrees.Session

variable {s t : Session} {id : TreeId} {ref : NodeRef} {n : Node}

/-! ### Nodes that wait -/

/-- Every node that waits holds the number of a request that is under way. -/
def Keyed (s : Session) : Prop :=
  ∀ id path n k, s.Occurs id path n → n.pending = some k →
    ∃ inquiry, s.pending.get? k = some inquiry

theorem Keyed.of_sameNodes (hk : s.Keyed) (hn : s.registry.SameNodes t.registry)
    (hopen : ∀ id, t.isOpen id → s.isOpen id)
    (hp : ∀ id path n k inquiry, s.Occurs id path n → n.pending = some k →
      s.pending.get? k = some inquiry → ∃ other, t.pending.get? k = some other) : t.Keyed := by
  intro id path n k ho hw
  have ho' := ho.of_sameNodes hn (hopen id)
  obtain ⟨inquiry, hi⟩ := hk id path n k ho' hw
  exact hp id path n k inquiry ho' hw hi

theorem Keyed.of_eq (hk : s.Keyed) (hr : t.registry = s.registry) (hp : ∀ k inquiry,
    s.pending.get? k = some inquiry → ∃ other, t.pending.get? k = some other) : t.Keyed := by
  refine hk.of_sameNodes (hr ▸ Registry.sameNodes_of_trees rfl) (fun id ho => ?_)
    fun _ _ _ k inquiry _ _ => hp k inquiry
  rwa [isOpen, hr] at ho

/-- A node changes. What other nodes wait for is still under way, and so is what it waits for. -/
theorem Keyed.of_updateNode (hk : s.Keyed) (h : s.Sound) (hm : s.Member id ref) {f : Node → Node}
    (hf : (s.node ref).Becomes (f (s.node ref))) (ht : t.registry = s.registry.updateNode ref f)
    (hself : ∀ k, (f (s.node ref)).pending = some k → ∃ inquiry, t.pending.get? k = some inquiry)
    (hbelow : ∀ i rest y, (s.node ref).children = [] → (f (s.node ref)).at? (i :: rest) = some y →
      y.pending = none)
    (hothers : ∀ k inquiry, s.pending.get? k = some inquiry → (s.node ref).pending ≠ some k →
      ∃ other, t.pending.get? k = some other) : t.Keyed := by
  intro other path n k ho hw
  rcases ho.of_updateNode h hm hf ht with
    ⟨hne, x, hx, hr⟩ | ⟨rfl, ⟨rfl, rfl⟩ | ⟨i, rest, hl, hy⟩⟩
  · have hw' : x.pending = some k := hr.pending ▸ hw
    obtain ⟨inquiry, hi⟩ := hk other path x k hx hw'
    exact hothers k inquiry hi fun he => hne (h.occurs_unique hi hx hw' (hm.occurs h) he)
  · exact hself k hw
  · rw [hbelow i rest n hl hy] at hw
    cases hw

/-- A node that keeps its children has nothing new below it. -/
theorem below_of_children {a b : Node} (hc : b.children = a.children) (i : Nat) (rest : List Nat)
    (y : Node) (hl : a.children = []) (hy : b.at? (i :: rest) = some y) : y.pending = none := by
  rw [Node.at?_cons_of_leaf (hc.trans hl)] at hy
  cases hy

/-- What was under way is under way after another request was put in. -/
theorem get?_put_of_get? {table : Table Token Inquiry} {k l : Token} {inquiry : Inquiry}
    (new : Inquiry) (hi : table.get? k = some inquiry) :
    ∃ other, (table.put l new).get? k = some other := by
  rw [Table.get?_put]
  split
  · exact ⟨new, rfl⟩
  · exact ⟨inquiry, hi⟩

/-- What is under way but is not `l` is under way after `l` was removed. -/
theorem get?_erase_of_get? {table : Table Token Inquiry} {k l : Token} {inquiry : Inquiry}
    (hi : table.get? k = some inquiry) (hne : l ≠ k) :
    ∃ other, (table.erase l).get? k = some other :=
  ⟨inquiry, (Table.get?_erase ..).trans ((if_neg hne).trans hi)⟩

/-- A request may go that no node of an open tree waits for. -/
theorem Keyed.of_erase (hk : s.Keyed) (h : s.Sound) {inquiry : Inquiry}
    (hr : t.registry = s.registry) (hp : t.pending = s.pending.erase inquiry.token)
    (hi : s.pending.get? inquiry.token = some inquiry)
    (ended : s.isLive inquiry = false ∨ ∃ request, Opens inquiry.purpose request) : t.Keyed := by
  refine hk.of_sameNodes (hr ▸ Registry.sameNodes_of_trees rfl) (fun id ho => ?_)
    fun id path n k other ho hw hk => ?_
  · rwa [isOpen, hr] at ho
  · rw [hp]
    refine get?_erase_of_get? hk ?_
    intro he
    subst he
    rcases ended with hl | ⟨request, hopens⟩
    · rw [h.isLive_of_member ho.member (ho.node ▸ hw) hi] at hl
      cases hl
    · obtain ⟨ref, d, hpur, -⟩ := (h.waiting.nodes _ _ _ _ ho.found hw).2 inquiry hi
      exact hopens.ne_expand _ _ _ _ hpur

/-- A node stops to wait, and its request goes with that. -/
theorem Keyed.givenUp (hk : s.Keyed) (h : s.Sound) (hm : s.Member id ref) :
    (s.givenUp ref).Keyed := by
  refine hk.of_updateNode h hm (f := fun node => { node with pending := none })
    ⟨rfl, .inl rfl⟩ (registry_givenUp ..)
    (fun k hw => by cases hw) (below_of_children rfl) fun k inquiry hi hne => ?_
  unfold Session.givenUp
  split
  · exact ⟨inquiry, hi⟩
  · rename_i other ho
    obtain ⟨l, hl, ho⟩ := Option.bind_eq_some_iff.1 ho
    obtain rfl := (h.waiting.own l other ho).1
    exact get?_erase_of_get? hi fun he => hne (he ▸ hl)

/-- A request fails: the node that waited for it waits no more. -/
theorem Keyed.failed (hk : s.Keyed) (h : s.Sound) {inquiry : Inquiry}
    (pending : s.pending.get? inquiry.token = some inquiry) (live : s.isLive inquiry) :
    (s.failed inquiry).Keyed := by
  cases hp : inquiry.purpose with
  | expand id ref generation direction =>
    obtain ⟨hm, hw, -⟩ := h.live pending hp live
    rw [Session.failed, hp]
    refine hk.of_updateNode h hm (f := fun node => { node with pending := none })
      ⟨rfl, .inl rfl⟩ rfl (fun k hw => by cases hw) (below_of_children rfl) fun k _ hi hne => ?_
    exact get?_erase_of_get? hi fun he => hne (he ▸ hw)
  | _ =>
    have hopens : ∃ request, Opens inquiry.purpose request := opens_of_ne_expand (by simp [hp])
    refine hk.of_erase h ?_ ?_ pending (.inr hopens) <;> rw [Session.failed, hp] <;> rfl

/-- A request ends with nodes: none of them waits, and the one above them waits no more. -/
theorem Keyed.grafted (hk : s.Keyed) (h : s.Sound) {inquiry : Inquiry} {generation : Nat}
    {direction : CallDirection} (pending : s.pending.get? inquiry.token = some inquiry)
    (purpose : inquiry.purpose = .expand id ref generation direction) (live : s.isLive inquiry) :
    (s.grafted inquiry ref).Keyed := by
  obtain ⟨hm, hw, -⟩ := h.live pending purpose live
  have hleaf := ((h.fits (hm.occurs h)).waiting (by rw [hw]; simp)).2.1
  refine hk.of_updateNode h hm (f := fun node => { node with
    children := s.childrenOf inquiry ref, expanded := true, pending := none })
    ⟨rfl, .inr hleaf⟩ rfl (fun k hw => by cases hw) (fun i rest y _ hy => ?_) fun k _ hi hne => ?_
  · exact (bare_of_childrenOf rfl hy).2
  · exact get?_erase_of_get? hi fun he => hne (he ▸ hw)

/-- **Every move keeps what nodes wait for**, if it can be told how long a request is kept. -/
theorem Keyed.move (hk : s.Keyed) (h : s.Sound) (htime : ∃ d, s.now.add s.settings.timeout = .ok d)
    (hm : Move s t) : t.Keyed := by
  cases hm with
  | journal | skip | ignore => exact hk.of_eq rfl fun k inquiry hi => ⟨inquiry, hi⟩
  | issue =>
    exact hk.of_sameNodes (Registry.sameNodes_of_trees rfl) (fun _ ho => ho)
      fun _ _ _ k i _ _ hi => ⟨i, hi⟩
  | draw isOpen =>
    refine hk.of_sameNodes (Registry.sameNodes_update fun t => ⟨rfl, rfl, rfl⟩) (fun id ho => ?_)
      fun _ _ _ k i _ _ hi => ⟨i, hi⟩
    rwa [Session.isOpen, Registry.isOpen_update rfl rfl] at ho
  | hide hidden slot =>
    refine hk.of_sameNodes (Registry.sameNodes_update fun t => ⟨rfl, rfl, rfl⟩) (fun id ho => ?_)
      fun _ _ _ k i _ _ hi => ⟨i, hi⟩
    rwa [Session.isOpen, Registry.isOpen_update rfl rfl] at ho
  | close slot =>
    exact hk.of_sameNodes (s.registry.sameNodes_without _ _ _)
      (fun id ho => ((h.registry.isOpen_without slot _).1 ho).1) fun _ _ _ k i _ _ hi => ⟨i, hi⟩
  | plant issued unused seed =>
    intro id path n k ho hw
    rcases ho.of_including rfl unused rfl with ⟨ho, -⟩ | ⟨-, -, hn⟩
    · exact hk id path n k ho hw
    · rw [(h.seed seed).2.2 path n hn] at hw
      cases hw
  | ask askable timely =>
    refine hk.of_updateNode h askable.member ⟨rfl, .inl rfl⟩ rfl (fun k hw => ?_)
      (below_of_children rfl) fun k inquiry hi _ => get?_put_of_get? _ hi
    obtain rfl := Option.some.inj hw
    exact ⟨_, Table.get?_put_self ..⟩
  | askInVain askable untimely =>
    obtain ⟨d, hd⟩ := htime
    rw [hd] at untimely
    cases untimely
  | giveUp member => exact hk.givenUp h member
  | unfold member known =>
    refine hk.of_updateNode h member (f := fun node => { node with expanded := _ })
      ⟨rfl, .inl rfl⟩ rfl (fun k hw => hk _ _ _ k (member.occurs h) hw) (below_of_children rfl)
      fun k inquiry hi _ => ⟨inquiry, hi⟩
  | turn isOpen turned idle =>
    intro id path n k ho hw
    rcases ho.of_turned rfl with ⟨ho, -⟩ | ⟨hn, -⟩
    · exact hk id path n k ho hw
    · rw [hn] at hw
      cases hw
  | inquire => exact hk.of_eq rfl fun k inquiry hi => get?_put_of_get? _ hi
  | answer => exact hk.of_eq rfl fun k inquiry hi => get?_put_of_get? _ hi
  | rearm => exact hk.of_eq rfl fun k inquiry hi => get?_put_of_get? _ hi
  | look => exact hk.of_eq rfl fun k inquiry hi => get?_put_of_get? _ hi
  | find => exact hk.of_eq rfl fun k inquiry hi => get?_put_of_get? _ hi
  | drop pending ended => exact hk.of_erase h rfl rfl pending ended
  | fail pending live => exact hk.failed h pending live
  | graft pending live purpose some => exact hk.grafted h pending purpose live

/-! ### After every run -/

/-- The clock as it was read: at the start, and whenever it was set. -/
def readings (now : Number) (events : List Event) : List Number :=
  now :: events.filterMap fun
    | .tick reading => some reading
    | _ => none

/-- How the table of requests, the nodes and the table of lookups agree. -/
structure Tables (s : Session) : Prop where
  /-- Every request is kept under its own number, and under no other. -/
  own : (s.pending.map Prod.fst).Nodup ∧
    ∀ k inquiry, s.pending.get? k = some inquiry → inquiry.token = k
  /-- The node that a request is for waits for that request. -/
  bound : ∀ k inquiry id ref generation direction, s.pending.get? k = some inquiry →
    inquiry.purpose = .expand id ref generation direction →
      ref.tree = id ∧ ∃ n, (s.tree id).node? ref.place = some n ∧ n.pending = some k
  /-- No two requests are for one node. -/
  single : ∀ k l first second id ref ref' generation generation' direction direction',
    s.pending.get? k = some first → s.pending.get? l = some second →
      first.purpose = .expand id ref generation direction →
        second.purpose = .expand id ref' generation' direction' →
          ref.place.Same ref'.place → k = l
  /-- What a node of an open tree waits for was made for this node, in the generation and the
  direction that its tree has. -/
  waiting : ∀ id path n k inquiry, s.Occurs id path n → n.pending = some k →
    s.pending.get? k = some inquiry →
      ∃ ref direction, inquiry.purpose = .expand id ref (s.tree id).generation direction ∧
        (s.tree id).direction = .calls direction ∧ ref.tree = id ∧ ref.place.path = path ∧
          (s.tree id).IsCurrent ref.place
  /-- A lookup is kept for a request if and only if the request is under way and lists it. -/
  mirrored : ∀ l k, (∃ index, s.lookups.get? l = some (k, index)) ↔
    ∃ inquiry, s.pending.get? k = some inquiry ∧ l ∈ inquiry.lookups
  /-- A lookup is for one of the calls of its request. -/
  index : ∀ l k index inquiry, s.lookups.get? l = some (k, index) →
    s.pending.get? k = some inquiry → index < inquiry.calls.length
  /-- No two lookups are for one call, and none is kept twice. -/
  once : (s.lookups.map Prod.fst).Nodup ∧ ∀ l l' target, s.lookups.get? l = some target →
    s.lookups.get? l' = some target → l = l'
  /-- No number is that of a request and of a lookup. -/
  apart : ∀ k l inquiry target, s.pending.get? k = some inquiry → s.lookups.get? l = some target →
    k ≠ l
  /-- All numbers are below the next one. -/
  issued : (∀ k inquiry, s.pending.get? k = some inquiry → k < s.nextToken) ∧
    ∀ l target, s.lookups.get? l = some target → l < s.nextToken

theorem Tree.node?_of_same {t : Tree} {p q : Place} (h : p.Same q) : t.node? p = t.node? q := by
  obtain ⟨hp, hg⟩ := h
  rcases hg with hg | hg
  · rw [Tree.node?_of_isCurrent (.inl hg), Tree.node?_of_isCurrent (.inl (hp ▸ hg)), hp]
  · have : p = q := by
      cases p
      cases q
      exact congrArg₂ _ hg hp
    rw [this]

theorem Sound.tables (h : s.Sound) : s.Tables where
  own := ⟨h.waiting.distinct, fun k inquiry hi => (h.waiting.own k inquiry hi).1⟩
  bound k inquiry id ref generation direction hi hp :=
    ⟨(h.bound hi hp).1, (h.bound hi hp).2.node⟩
  single k l first second id ref ref' generation generation' direction direction' hi hi' hp hp'
      hs := by
    obtain ⟨n, hn, hw⟩ := (h.bound hi hp).2.node
    obtain ⟨n', hn', hw'⟩ := (h.bound hi' hp').2.node
    rw [Tree.node?_of_same hs, hn'] at hn
    obtain rfl := Option.some.inj hn
    exact Option.some.inj (hw.symm.trans hw')
  waiting id path n k inquiry ho hw hi := by
    obtain ⟨ref, direction, hp, hpath⟩ := (h.waiting.nodes _ _ _ _ ho.found hw).2 inquiry hi
    obtain ⟨htree, hb⟩ := h.bound hi hp
    exact ⟨ref, direction, hp, hb.direction rfl, htree, hpath, hb.isCurrent rfl⟩
  mirrored l k := by
    constructor
    · rintro ⟨index, hl⟩
      obtain ⟨-, -, inquiry, hi, hm, -⟩ := h.looking.known l k index hl
      exact ⟨inquiry, hi, hm⟩
    · rintro ⟨inquiry, hi, hm⟩
      exact h.looking.listed k inquiry hi l hm
  index l k index inquiry hl hi := by
    obtain ⟨-, -, other, ho, -, hlt⟩ := h.looking.known l k index hl
    obtain rfl := Option.some.inj (hi.symm.trans ho)
    exact hlt
  once := ⟨h.looking.distinct, h.looking.once⟩
  apart k l inquiry target hi hl := by
    rintro rfl
    rw [(h.looking.known k target.1 target.2 hl).2.1] at hi
    cases hi
  issued := ⟨fun k inquiry hi => (h.waiting.own k inquiry hi).2,
    fun l target hl => (h.looking.known l target.1 target.2 hl).1⟩

/-- Readings only join those that there were. -/
theorem readings_append (now : Number) (first second : List Event) :
    ∀ reading ∈ readings now first, reading ∈ readings now (first ++ second) := by
  intro reading hr
  rw [readings, List.filterMap_append, ← List.cons_append]
  exact List.mem_append_left _ hr

theorem keyed_steps (client : Client) (settings : Settings) (root : Path) (now : Number)
    (events : List Event)
    (htime : ∀ reading ∈ readings now events, ∃ d, reading.add settings.timeout = .ok d) :
    ((start client settings root now).steps events).Keyed := by
  have hinv := steps_induction
    (P := fun before s => s.settings = settings ∧ s.now ∈ readings now before ∧
      ((∀ reading ∈ readings now before, ∃ d, reading.add settings.timeout = .ok d) → s.Keyed))
    (sound_start client settings root now) ?_ ?_ ?_ ?_ ?_ events
  · exact hinv.2.2 htime
  · refine ⟨rfl, List.mem_cons_self, ?_⟩
    intro _ id path n k ho _
    cases ho.isOpen
  · rintro before e s ⟨hs, hn, hk⟩
    exact ⟨hs, readings_append now before [e] _ hn,
      fun ht => hk fun reading hr => ht reading (readings_append now before [e] reading hr)⟩
  · rintro before s reading ⟨hs, -, hk⟩
    refine ⟨hs, ?_, fun ht => (hk ht).of_eq rfl fun k inquiry hi => ⟨inquiry, hi⟩⟩
    simp [readings, ticked]
  · rintro before s t h ⟨hs, hn, hk⟩ hm
    obtain ⟨hsettings, -, hnow⟩ := hm.given
    rw [hsettings, hnow]
    exact ⟨hs, hn, fun ht => (hk ht).move h (hs ▸ ht _ hn) hm⟩
  · rintro before i request outcome ⟨hs, hn, hk⟩ - -
    exact ⟨hs, hn, fun ht => (hk ht).of_eq rfl fun k inquiry hi => ⟨inquiry, hi⟩⟩

/-- **After every run the tables agree**, whatever arrived in whatever order, and also where
operations failed; and every node that waits waits for something that is under way, as long as it
can always be told until when a request is kept. -/
theorem tables_steps (client : Client) (settings : Settings) (root : Path) (now : Number)
    (events : List Event) :
    ((start client settings root now).steps events).Tables ∧
      ((∀ reading ∈ readings now events, ∃ d, reading.add settings.timeout = .ok d) →
        ((start client settings root now).steps events).Keyed) :=
  ⟨((sound_start client settings root now).steps events).tables,
    keyed_steps client settings root now events⟩

/-- The callers of a function are asked for, and the server gives no answer. -/
def failedRun : List Event :=
  [.openCalls ⟨"f", none, [], ⟨⟨0, 0⟩, ⟨0, 0⟩⟩, ⟨⟨0, 0⟩, ⟨0, 0⟩⟩, none, []⟩ (.calls .incoming),
    .expand 0 ⟨0, 0, []⟩, .tick (.float 3), .settle 0 (.failure "no"), .pump]

/-- With ten seconds for every request it can be told until when one is kept. -/
theorem tables_failedRun :
    (∀ reading ∈ readings (.float 0) failedRun,
      ∃ d, reading.add Settings.default.timeout = .ok d) ∧
        ((start .server Settings.default ⟨.root, []⟩ (.float 0)).steps failedRun).Tables ∧
          ((start .server Settings.default ⟨.root, []⟩ (.float 0)).steps failedRun).Keyed := by
  have htime : ∀ reading ∈ readings (.float 0) failedRun,
      ∃ d, reading.add Settings.default.timeout = .ok d := by
    intro reading hr
    have he : readings (.float 0) failedRun = [.float 0, .float 3] := rfl
    rw [he] at hr
    rcases List.mem_cons.1 hr with rfl | hr
    · exact ⟨_, rfl⟩
    · obtain rfl := List.mem_singleton.1 hr
      exact ⟨_, rfl⟩
  have ht := tables_steps .server Settings.default ⟨.root, []⟩ (.float 0) failedRun
  exact ⟨htime, ht.1, ht.2 htime⟩

end SymbolTrees.Session
