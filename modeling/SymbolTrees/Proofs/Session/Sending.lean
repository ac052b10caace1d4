import SymbolTrees.Proofs.Session.Display

/-!
# What operations send

An operation sends at most one request, and only the one that is due: `Due` tells which that is.
Nothing that has arrived is touched by it, and it is refused only where its tree or its node is not
one that it can be for.
-/

namespace SymbolTrees

open SymbolTrees.Server (Request)

/-- In a tree of calls the nodes below a node are known if there are any. -/
theorem Node.Fits.isResolved {d : Direction} {n : Node} (h : n.Fits d) (hd : d.calls?.isSome) :
    n.isResolved = false ↔ n.children = [] := by
  constructor
  · intro hn
    have hboth : n.expanded = false ∧ n.children = [] := by simpa [Node.isResolved] using hn
    exact hboth.2
  · intro hl
    have hclosed : n.expanded = false := by
      by_contra he
      exact h.opened hd (by simpa using he) hl
    simp [Node.isResolved, hclosed, hl]

namespace Session

variable {s t u : Session} {id : TreeId} {ref : NodeRef} {α : Type} {posts more : List Sent}
  {token : Option Token} {due : Request → Prop} {e : Fault}

/-! ### Requests that are sent -/

/-- `posts` was sent and nothing else, no lookup among it; and nothing has arrived but what a
recording answers at once. -/
structure Makes (s : Session) (posts : List Sent) (t : Session) : Prop where
  given : t.settings = s.settings ∧ t.client = s.client ∧ t.now = s.now
  plain : ∀ r ∈ posts, r.isLookup = false
  sent : t.sent = s.sent ++ posts
  arrivals : t.arrivals =
    s.arrivals ++ posts.flatMap fun r => s.client.prompt r.isLookup r.token r.request

namespace Makes

theorem nothing (given : t.settings = s.settings ∧ t.client = s.client ∧ t.now = s.now)
    (sent : t.sent = s.sent) (arrivals : t.arrivals = s.arrivals) : s.Makes [] t :=
  ⟨given, by simp, by simp [sent], by simp [arrivals]⟩

theorem refl (s : Session) : s.Makes [] s := .nothing ⟨rfl, rfl, rfl⟩ rfl rfl

theorem trans (h : s.Makes posts t) (h' : t.Makes more u) : s.Makes (posts ++ more) u := by
  obtain ⟨hsettings, hclient, hnow⟩ := h.given
  obtain ⟨hsettings', hclient', hnow'⟩ := h'.given
  refine ⟨⟨hsettings'.trans hsettings, hclient'.trans hclient, hnow'.trans hnow⟩, ?_, ?_, ?_⟩
  · intro r hr
    exact (List.mem_append.1 hr).elim (h.plain r) (h'.plain r)
  · rw [h'.sent, h.sent, List.append_assoc]
  · rw [h'.arrivals, h.arrivals, hclient, List.flatMap_append, List.append_assoc]

/-- Nothing was sent before. -/
theorem after (h : t.Makes posts u) (h' : s.Makes [] t) : s.Makes posts u := h'.trans h

/-- Nothing is sent any more. -/
theorem before (h : s.Makes posts t) (h' : t.Makes [] u) : s.Makes posts u :=
  List.append_nil posts ▸ h.trans h'

theorem posted (s : Session) (k : Token) (request : Request) :
    s.Makes [⟨k, false, request, s.client.isServer⟩] (s.posted k false request) :=
  ⟨⟨rfl, rfl, rfl⟩, by simp, rfl, by simp [Session.posted]⟩

theorem givenUp (s : Session) (ref : NodeRef) : s.Makes [] (s.givenUp ref) := by
  unfold Session.givenUp
  split <;> exact .nothing ⟨rfl, rfl, rfl⟩ rfl rfl

end Makes

/-- The request that is due was sent, once, as number `token`, and nothing if none is due. -/
inductive Submits (s : Session) (due : Request → Prop) : Option Token → List Sent → Prop where
  | nothing (idle : ∀ request, ¬due request) : Submits s due none []
  | request {request : Request} (k : Token) (isDue : due request) :
    Submits s due (some k) [⟨k, false, request, s.client.isServer⟩]

/-- What is due is all that an operation has sent. -/
def Meets (s : Session) (due : Request → Prop) (token : Option Token) (t : Session) : Prop :=
  ∃ posts, s.Makes posts t ∧ Submits s due token posts

theorem Meets.before (h : s.Meets due token t) (h' : t.Makes [] u) : s.Meets due token u := by
  obtain ⟨posts, hmakes, hsends⟩ := h
  exact ⟨posts, hmakes.before h', hsends⟩

/-- What was due later was due before, as nothing was sent in between. -/
theorem Meets.after {owed : Request → Prop} (h : t.Meets owed token u) (h' : s.Makes [] t)
    (hd : ∀ request, owed request ↔ due request) : s.Meets due token u := by
  obtain ⟨posts, hmakes, hsends⟩ := h
  refine ⟨posts, hmakes.after h', ?_⟩
  cases hsends with
  | nothing idle => exact .nothing fun request hr => idle request ((hd request).2 hr)
  | request k isDue => exact h'.given.2.1 ▸ .request k ((hd _).1 isDue)

theorem Makes.meets (h : s.Makes [] t) (hd : ∀ request, ¬due request) : s.Meets due none t :=
  ⟨[], h, .nothing hd⟩

/-- Why an operation that is for a tree and a node that it can be for comes to nothing: the deadline
of its request cannot be told, a recording cannot be asked for it, or a tree cannot be drawn. -/
inductive Hinders (s : Session) (due : Request → Prop) (t : Session) : Prop where
  | untimely {reason : Malformed} (late : s.now.add s.settings.timeout = .error reason)
    (makes : s.Makes [] t)
  | baffled {request : Request} (isDue : due request) (baffled : s.client.Baffled request)
    (token : Option Token) (meets : s.Meets due token t)
  | undrawn {id : TreeId} {reason : Malformed} (isOpen : t.isOpen id)
    (undrawn : View.ofTree (t.tree id) t.style = .error reason) (token : Option Token)
    (meets : s.Meets due token t)

theorem Hinders.after {owed : Request → Prop} (h : t.Hinders owed u) (h' : s.Makes [] t)
    (hd : ∀ request, owed request ↔ due request) : s.Hinders due u := by
  obtain ⟨hsettings, hclient, hnow⟩ := h'.given
  cases h with
  | untimely late makes => exact .untimely (hnow ▸ hsettings ▸ late) (makes.after h')
  | baffled isDue baffled token meets =>
    exact .baffled ((hd _).1 isDue) (hclient ▸ baffled) token (meets.after h' hd)
  | undrawn isOpen undrawn token meets => exact .undrawn isOpen undrawn token (meets.after h' hd)

/-- It fails for nothing that it was asked of. -/
def Falls (s : Session) (due : Request → Prop) : Fault → Session → Prop :=
  fun e t => IsMalformed e ∧ s.Hinders due t

/-- Nothing is sent, also where that fails. -/
def Refrains (s : Session) : Fault → Session → Prop :=
  fun e t => e.isUnaskable = false ∧ s.Makes [] t

theorem Falls.after {owed : Request → Prop} (h : t.Falls owed e u) (h' : s.Makes [] t)
    (hd : ∀ request, owed request ↔ due request) : s.Falls due e u :=
  ⟨h.1, h.2.after h' hd⟩

/-! ### Drawing and asking -/

theorem sends_render (hm : s.Meets due token t) (ho : t.isOpen id) :
    (render id).Ends t (fun _ u => s.Meets due token u) (s.Falls due) := by
  refine (ends_render ho).mono ?_ ?_
  · rintro view _ ⟨-, rfl⟩
    exact hm.before (.nothing ⟨rfl, rfl, rfl⟩ rfl rfl)
  · rintro e _ ⟨rfl, he, reason, hv⟩
    exact ⟨he, .undrawn ho hv token hm⟩

/-- The request for the nodes below a node. -/
inductive Wants (s : Session) (id : TreeId) (ref : NodeRef) : Request → Prop where
  | calls {direction : CallDirection} {item : CallItem} (askable : s.Askable id ref direction item) :
    Wants s id ref (.calls direction item)

/-- The request that is due at an event: for the first level of a tree of calls that is opened or
turned round, for a copy that has no nodes below it, and for the nodes below a node that is unfolded
and for which nobody has asked. -/
inductive Due (s : Session) : Event → Request → Prop where
  | openCalls (item : CallItem) (direction : CallDirection) :
    Due s (.openCalls item (.calls direction)) (.calls direction item)
  | startCalls (uri : Text) (line character : Int) (direction : CallDirection) :
    Due s (.startCalls uri line character (.calls direction)) (.prepareCalls uri line character)
  | startOutline (uri : Text) : Due s (.startOutline uri) (.documentSymbols uri)
  | expand {id : TreeId} {ref : NodeRef} {request : Request} (wants : s.Wants id ref request) :
    Due s (.expand id ref) request
  | toggle {id : TreeId} {ref : NodeRef} {request : Request} (wants : s.Wants id ref request) :
    Due s (.toggle id ref) request
  | focus {id : TreeId} {ref : NodeRef} {direction : CallDirection} {item : CallItem}
    (member : s.Member id ref) (isCalls : (s.tree id).direction = .calls direction)
    (isItem : (s.node ref).payload.callItem? = some item) (leaf : (s.node ref).children = []) :
    Due s (.focus id ref) (.calls direction item)
  | switchDirection {id : TreeId} {direction : CallDirection} {item : CallItem}
    (isOpen : s.isOpen id) (isCalls : (s.tree id).direction = .calls direction)
    (isItem : (s.tree id).root.payload.callItem? = some item) :
    Due s (.switchDirection id) (.calls direction.flip item)

/-- The nodes below a node of a tree of calls are asked for if they can be. -/
theorem sends_askChildren (h : s.Sound) (hm : s.Member id ref)
    (hc : (s.tree id).direction.calls?.isSome) : (askChildren id ref none).Ends s
      (fun token t => s.Meets (s.Wants id ref) token t ∧ t.isOpen id) (s.Falls (s.Wants id ref)) := by
  have hposted {direction : CallDirection} {item : CallItem} {deadline : Number}
      (ha : s.Askable id ref direction item) :
      s.Meets (s.Wants id ref) (some s.nextToken) (((s.awaiting ref).entered s.nextToken
        (.expand id ref (s.tree id).generation direction) deadline).posted s.nextToken false
          (.calls direction item)) := by
    refine ⟨_, (Makes.posted _ _ _).after ?_, .request _ (.calls ha)⟩
    exact .nothing ⟨rfl, rfl, rfl⟩ rfl rfl
  have hopen {r : Registry} (hr : r = (s.awaiting ref).registry) : r.isOpen id := by
    rw [hr]
    exact Registry.isOpen_updateNode.trans hm.isOpen
  refine (ends_askChildren h hm).mono ?_ ?_
  · intro token t hasks
    cases hasks with
    | known there =>
      refine ⟨(Makes.refl s).meets ?_, hm.isOpen⟩
      rintro _ ⟨askable⟩
      rcases there with there | there
      · exact there askable.leaf
      · rw [askable.idle] at there
        cases there
    | sent askable => exact ⟨hposted askable, hopen rfl⟩
  · intro e t hbalks
    have hitem := (h.fits (hm.occurs h)).item
    cases hbalks with
    | refused rejection bare =>
      rcases bare with bare | bare
      · rw [bare] at hc
        cases hc
      · rw [← hitem, bare] at hc
        cases hc
    | untimely askable late =>
      exact ⟨⟨_, rfl⟩, .untimely late (.nothing ⟨rfl, rfl, rfl⟩ rfl rfl)⟩
    | baffled askable timely baffled =>
      exact ⟨⟨_, rfl⟩, .baffled (.calls askable) baffled _ (hposted askable)⟩

/-- The nodes below a node are asked for, and the tree is drawn. -/
theorem sends_askAndRender (h : s.Sound) (hm : s.Member id ref)
    (hc : (s.tree id).direction.calls?.isSome) {f : Option Token → α} :
    Action.Ends (do
      let token ← askChildren id ref none
      let _ ← render id
      pure (f token)) s (fun a t => ∃ token, a = f token ∧ s.Meets (s.Wants id ref) token t)
        (s.Falls (s.Wants id ref)) := by
  refine .bind ((sends_askChildren h hm hc).mono ?_ fun _ _ h => h)
  rintro token t ⟨hmeets, ho⟩
  exact .bind ((sends_render hmeets ho).mono (fun _ _ h => .pure ⟨token, rfl, h⟩) fun _ _ h => h)

theorem sends_inquire {purpose : Purpose} {request : Request} (ho : Opens purpose request) :
    (inquire purpose request).Ends s (fun k t => s.Meets (· = request) (some k) t)
      (s.Falls (· = request)) := by
  have hposted {deadline : Number} : s.Meets (· = request) (some s.nextToken)
      (({ s with nextToken := s.nextToken + 1 }.entered s.nextToken purpose deadline).posted
        s.nextToken false request) :=
    ⟨_, (Makes.posted _ _ _).after (.nothing ⟨rfl, rfl, rfl⟩ rfl rfl), .request _ rfl⟩
  refine (ends_inquire ho).mono ?_ ?_
  · intro k t hsent
    cases hsent with
    | sent => exact hposted
  · intro e t hdefers
    cases hdefers with
    | untimely late => exact ⟨⟨_, rfl⟩, .untimely late (.nothing ⟨rfl, rfl, rfl⟩ rfl rfl)⟩
    | baffled timely baffled => exact ⟨⟨_, rfl⟩, .baffled rfl baffled _ hposted⟩

/-! ### New trees -/

/-- The tree `id` was planted, and nothing else is changed that is on display. -/
structure Plants (s : Session) (id : TreeId) (tree : Tree) (t : Session) : Prop where
  moves : Moves s t
  makes : s.Makes [] t
  isOpen : t.isOpen id
  tree : t.tree id = tree
  length : t.registry.trees.length = s.registry.trees.length + 1
  others : ∀ other < s.registry.trees.length,
    t.tree other = s.tree other ∧ t.isOpen other = s.isOpen other
  style : t.style = s.style
  buffers : t.buffers = s.buffers
  pending : t.pending = s.pending
  lookups : t.lookups = s.lookups
  notes : t.journal.notes = s.journal.notes
  nextToken : t.nextToken = s.nextToken

section Plant

variable {root : Node} {direction : Direction} {uri : Option Text} {kind : TreeKind}

/-- A tree is planted under the next handle. -/
theorem ends_plant (h : s.Sound) (seed : Seed s direction root) (hk : direction.kind? = some kind)
    {f : TreeId → SessionM α} {Q : α → Session → Prop} {E : Fault → Session → Prop}
    (hf : ∀ t, s.Plants s.registry.trees.length
      ⟨s.registry.nextHandle, root, direction, uri, false, false, [], [], []⟩ t →
        (f s.registry.trees.length).Ends t Q E) :
    (putTree ⟨s.registry.nextHandle, root, direction, uri, false, false, [], [], []⟩ >>= f).Ends
      { s with registry := { s.registry with nextHandle := s.registry.nextHandle + 1 } } Q E := by
  have hseed : Seed { s with registry := { s.registry with nextHandle := s.registry.nextHandle + 1 } }
      direction root := by
    cases seed with
    | call item direction => exact .call item direction
    | copy isOpen found => exact .copy isOpen found
    | outline made => exact .outline made
  have hmove := @Move.plant
    { s with registry := { s.registry with nextHandle := s.registry.nextHandle + 1 } } _ _ _ uri _
    (Int.lt_succ _) h.registry.issued hseed hk
  refine .bind ((ends_putTree _ rfl hk).mono ?_ fun _ _ h => h.elim)
  rintro _ _ ⟨rfl, rfl⟩
  have hopen (other : TreeId) := @Registry.isOpen_including
    { s.registry with nextHandle := s.registry.nextHandle + 1 } other
      ⟨s.registry.nextHandle, root, direction, uri, false, false, [], [], []⟩ rfl
        h.registry.issued kind
  refine hf _ ⟨moves_log (.tail (.single (.issue s)) hmove), .nothing ⟨rfl, rfl, rfl⟩ rfl rfl,
    (hopen _).2 (.inr rfl), Registry.tree_including_length _ _, ?_, fun other hlt => ⟨?_, ?_⟩, rfl,
      rfl, rfl, rfl, rfl, rfl⟩
  · simp [Registry.including]
  · exact Registry.tree_including_of_lt (r :=
      { s.registry with nextHandle := s.registry.nextHandle + 1 }) _ _ hlt
  · refine Bool.eq_iff_iff.2 ((hopen other).trans (or_iff_left ?_))
    exact Nat.ne_of_lt hlt

end Plant

/-- The first level of a tree of calls can be asked for if it is not there. -/
theorem wants_root (d : CallDirection) (item : CallItem) (ho : t.isOpen id)
    (hd : (t.tree id).direction = .calls d)
    (hi : (t.tree id).root.payload.callItem? = some item) (hl : (t.tree id).root.children = [])
    (he : (t.tree id).root.expanded = false) (hp : (t.tree id).root.pending = none)
    (request : Request) : t.Wants id (t.rootOf id) request ↔ request = .calls d item := by
  have hoccurs : t.Occurs id [] (t.tree id).root := ⟨ho, rfl⟩
  have hnode : t.node (t.rootOf id) = (t.tree id).root := hoccurs.node
  constructor
  · rintro ⟨askable⟩
    have hitem := askable.item
    rw [hnode, hi] at hitem
    rw [Direction.calls.inj (askable.direction.symm.trans hd), Option.some.inj hitem]
  · rintro rfl
    refine ⟨member_rootOf ho, hd, ?_, ?_, ?_, ?_⟩
    · rw [hnode, hi]
    · rw [hnode, hl]
    · rw [hnode, he]
    · rw [hnode, isInFlight, hp]

/-- A new tree is asked for and drawn. -/
theorem sends_present (h : t.Sound) (ho : t.isOpen id) (hc : (t.tree id).direction.calls?.isSome)
    (hmakes : s.Makes [] t) (hwants : ∀ request, t.Wants id (t.rootOf id) request ↔ due request) :
    (present true id).Ends t (fun _ u => ∃ token, s.Meets due token u) (s.Falls due) := by
  rw [present_true]
  refine .bind (.get ((sends_askAndRender h (member_rootOf ho) hc).mono ?_ ?_))
  · rintro _ u ⟨token, -, hmeets⟩
    exact ⟨token, hmeets.after hmakes hwants⟩
  · exact fun e u hf => hf.after hmakes hwants

theorem sends_openCalls (h : s.Sound) (item : CallItem) (direction : CallDirection) :
    (openCalls item (.calls direction)).Ends s
      (fun _ t => ∃ token, s.Meets (· = .calls direction item) token t)
      (s.Falls (· = .calls direction item)) := by
  refine ends_openCalls (ends_plant h (.call item direction) rfl fun t hp => ?_)
  refine sends_present (h.moves hp.moves) hp.isOpen ?_ hp.makes (wants_root direction item hp.isOpen
    (by rw [hp.tree]) (by rw [hp.tree]; rfl) (by rw [hp.tree]; rfl) (by rw [hp.tree]; rfl)
    (by rw [hp.tree]; rfl))
  rw [hp.tree]
  rfl

/-- Outlines are opened without asking for anything. -/
theorem sends_openOutline (h : s.Sound) (uri : Text) {root : Except Fault Node}
    (hr : ∀ node, root = .ok node → ∃ entries, Node.outline uri entries = .ok node)
    (he : ∀ e, root = .error e → e.isRejection = false) :
    (openOutline uri root).Ends s (fun _ t => s.Makes [] t) s.Refrains := by
  refine ends_openOutline (fun e hroot => ?_) fun node hnode => ?_
  · exact ⟨isUnaskable_of_not_isRejection (he e hroot), .nothing ⟨rfl, rfl, rfl⟩ rfl rfl⟩
  obtain ⟨entries, hmade⟩ := hr node hnode
  refine ends_plant h (.outline hmade) rfl fun t hp => .bind ((ends_render hp.isOpen).mono ?_ ?_)
  · rintro view _ ⟨-, rfl⟩
    exact .pure (hp.makes.before (.nothing ⟨rfl, rfl, rfl⟩ rfl rfl))
  · rintro e _ ⟨rfl, he, -⟩
    exact ⟨he.not_isUnaskable, hp.makes⟩

/-! ### What a user asks for -/

theorem Meets.makes (h : s.Meets due token t) (hd : ∀ request, ¬due request) : s.Makes [] t := by
  obtain ⟨posts, hmakes, hsends⟩ := h
  cases hsends with
  | nothing => exact hmakes
  | request k isDue => exact absurd isDue (hd _)

theorem Falls.refrains (h : s.Falls due e t) (hd : ∀ request, ¬due request) : s.Refrains e t := by
  refine ⟨h.1.not_isUnaskable, ?_⟩
  cases h.2 with
  | untimely late makes => exact makes
  | baffled isDue baffled token meets => exact meets.makes hd
  | undrawn isOpen undrawn token meets => exact meets.makes hd

/-- A node is opened or closed. -/
theorem Meets.unfolded (h : s.Meets due token t) (hm : t.Member id ref) (expanded : Bool) :
    s.Meets due token (t.unfolded ref expanded) ∧ (t.unfolded ref expanded).isOpen id :=
  ⟨h.before (.nothing ⟨rfl, rfl, rfl⟩ rfl rfl), Registry.isOpen_updateNode.trans hm.isOpen⟩

theorem sends_expand (h : s.Sound) (hm : s.Member id ref) : (expand id ref).Ends s
    (fun token t => s.Meets (s.Wants id ref) token t) (s.Falls (s.Wants id ref)) := by
  refine ends_expand h (fun hn => absurd hm hn) (fun _ hexpanded => ?_) (fun _ hknown => ?_)
    fun _ _ hc => (sends_askChildren h hm hc).mono (fun _ _ h => h.1) fun _ _ h => h
  · refine (Makes.refl s).meets ?_
    rintro _ ⟨askable⟩
    rw [askable.closed] at hexpanded
    cases hexpanded
  · have hidle : ∀ request, ¬s.Wants id ref request := by
      rintro _ ⟨askable⟩
      simp [askable.leaf, askable.item] at hknown
    obtain ⟨hmeets, ho⟩ := ((Makes.refl s).meets hidle).unfolded hm true
    exact sends_render hmeets ho

/-- Nothing is sent where a node is closed. -/
theorem sends_collapse (h : s.Sound) (hm : s.Member id ref) (hd : ∀ request, ¬due request) :
    (collapse id ref).Ends s (fun _ t => s.Meets due none t) fun e t =>
      s.Falls due e t ∨ (s.node ref).depth = 0 ∧ e = .refused .fixedRoot ∧ t = s := by
  have hgiven := (Makes.givenUp s ref).meets hd
  refine ends_collapse h (fun hn => absurd hm hn) (fun _ hdepth => .inr ⟨hdepth, rfl, rfl⟩)
    (fun _ _ => hgiven) fun _ => ?_
  obtain ⟨hmeets, ho⟩ := hgiven.unfolded (member_givenUp h hm) false
  exact (sends_render hmeets ho).mono (fun _ _ h => h) fun _ _ h => .inl h

theorem sends_toggle (h : s.Sound) (hm : s.Member id ref) : (toggle id ref).Ends s
    (fun token t => s.Meets (s.Wants id ref) token t) (s.Falls (s.Wants id ref)) := by
  refine ends_toggle (fun hexpanded hdepth => ?_) (sends_expand h hm)
  have hidle : ∀ request, ¬s.Wants id ref request := by
    rintro _ ⟨askable⟩
    rw [askable.closed] at hexpanded
    cases hexpanded
  refine (sends_collapse h hm hidle).mono (fun _ _ h => h) ?_
  rintro e t (hfalls | ⟨hroot, -⟩)
  · exact hfalls
  · omega

/-- A copy of a node below which nothing is known is asked for. -/
theorem due_focus (hm : s.Member id ref) {d : CallDirection} {item : CallItem}
    (hd : (s.tree id).direction = .calls d) (hi : (s.node ref).payload.callItem? = some item)
    (hl : (s.node ref).children = []) (request : Request) :
    Due s (.focus id ref) request ↔ request = .calls d item := by
  constructor
  · intro hdue
    cases hdue with
    | focus member isCalls isItem leaf =>
      rw [Direction.calls.inj (hd.symm.trans isCalls), Option.some.inj (hi.symm.trans isItem)]
  · rintro rfl
    exact .focus hm hd hi hl

/-- The root of a copy is to be asked for if the node was. -/
theorem wants_copy (h : s.Sound) (hm : s.Member id ref) {new : TreeId} {handle : Int}
    (hp : s.Plants new ⟨handle, { (s.node ref).copy 0 with depth := 0 }, (s.tree id).direction,
      (s.tree id).uri, false, false, [], [], []⟩ t)
    (hasks : ((s.tree id).isCallTree && !(s.node ref).isResolved) = true) (request : Request) :
    t.Wants new (t.rootOf new) request ↔ Due s (.focus id ref) request := by
  obtain ⟨hcalls, hresolved⟩ : (s.tree id).direction.calls?.isSome ∧
      (s.node ref).isResolved = false := by
    obtain ⟨hcalls, hresolved⟩ := Bool.and_eq_true_iff.1 hasks
    exact ⟨hcalls, by simpa using hresolved⟩
  have hboth : (s.node ref).expanded = false ∧ (s.node ref).children = [] := by
    simpa [Node.isResolved] using hresolved
  obtain ⟨d, hd⟩ := Option.isSome_iff_exists.1 hcalls
  obtain ⟨item, hi⟩ := Option.isSome_iff_exists.1 ((h.fits (hm.occurs h)).item.trans hcalls)
  have hd := Direction.eq_of_calls? hd
  refine (wants_root d item hp.isOpen ?_ ?_ ?_ ?_ ?_ _).trans (due_focus hm hd hi hboth.2 request).symm
  all_goals rw [hp.tree]
  · exact hd
  · exact (congrArg Payload.callItem? (Node.copy_payload 0 _)).trans hi
  · exact (Node.children_copy 0 _).trans (List.map_eq_nil_iff.2 hboth.2)
  · exact (Node.copy_expanded 0 _).trans hboth.1
  · exact Node.copy_pending 0 _

/-- A copy of which all is known is not asked for. -/
theorem not_due_focus (h : s.Sound) (hm : s.Member id ref)
    (hasks : ((s.tree id).isCallTree && !(s.node ref).isResolved) = false) (request : Request) :
    ¬Due s (.focus id ref) request := by
  intro hdue
  cases hdue with
  | focus member isCalls isItem leaf =>
    have hcalls : (s.tree id).direction.calls?.isSome := by
      rw [isCalls]
      rfl
    have hnone := ((h.fits (hm.occurs h)).isResolved hcalls).2 leaf
    rw [Tree.isCallTree, hcalls, hnone] at hasks
    cases hasks

theorem sends_focus (h : s.Sound) (hm : s.Member id ref) : (focus id ref).Ends s
    (fun _ t => ∃ token, s.Meets (Due s (.focus id ref)) token t)
    (s.Falls (Due s (.focus id ref))) := by
  obtain ⟨kind, hk⟩ := (h.grown id).known
  refine ends_focus h (fun hn => absurd hm hn) fun _ => ?_
  refine ends_plant h (h.seed_copy hm) hk fun t hp => ?_
  cases hasks : (s.tree id).isCallTree && !(s.node ref).isResolved with
  | true =>
    refine sends_present (h.moves hp.moves) hp.isOpen ?_ hp.makes (wants_copy h hm hp hasks)
    rw [hp.tree]
    exact (Bool.and_eq_true_iff.1 hasks).1
  | false =>
    exact .bind ((sends_render (hp.makes.meets (not_due_focus h hm hasks)) hp.isOpen).mono
      (fun _ _ h => .pure ⟨none, h⟩) fun _ _ h => h)

/-- The root of a tree that is turned round is to be asked for. -/
theorem wants_turnedRound (h : s.Sound) (ho : s.isOpen id) {d : CallDirection}
    (hd : (s.tree id).direction = .calls d) (request : Request) :
    (s.turnedRound id d).Wants id ((s.turnedRound id d).rootOf id) request ↔
      Due s (.switchDirection id) request := by
  have htree : (s.turnedRound id d).tree id = _ := tree_turnedRound h ho
  have hsome : (s.tree id).root.payload.callItem?.isSome = (s.tree id).direction.calls?.isSome :=
    (h.grown id).fits.root.item
  rw [hd] at hsome
  obtain ⟨item, hi⟩ := Option.isSome_iff_exists.1 hsome
  refine (wants_root d.flip item (isOpen_turnedRound h ho) ?_ ?_ ?_ ?_ ?_ _).trans ?_
  · rw [htree]
    rfl
  · rw [htree]
    exact hi
  · rw [htree]
    rfl
  · rw [htree]
    rfl
  · rw [htree]
    rfl
  · constructor
    · rintro rfl
      exact .switchDirection ho hd hi
    · rintro ⟨⟩
      rename_i isCalls isItem
      rw [Direction.calls.inj (hd.symm.trans isCalls), Option.some.inj (hi.symm.trans isItem)]

/-- A tree of calls that is turned round has its first level asked for anew. -/
theorem sends_switchDirection (h : s.Sound) (ho : s.isOpen id)
    (hc : (s.tree id).direction.calls?.isSome) : (switchDirection id).Ends s
      (fun token t => s.Meets (Due s (.switchDirection id)) token t)
      (s.Falls (Due s (.switchDirection id))) := by
  refine ends_switchDirection h (fun hn => absurd ho hn) (fun hn => ?_) fun d _ hd => ?_
  · rw [hn] at hc
    cases hc
  obtain ⟨hturn, -⟩ := moves_switchDirection h ho hd
  have hturned := (h.givenUp (member_rootOf ho)).move hturn
  have hmakes : s.Makes [] (s.turnedRound id d) :=
    (Makes.givenUp s _).before (.nothing ⟨rfl, rfl, rfl⟩ rfl rfl)
  have hcalls : ((s.turnedRound id d).tree id).direction.calls?.isSome := by
    rw [tree_turnedRound h ho]
    rfl
  refine (sends_askAndRender hturned (member_rootOf (isOpen_turnedRound h ho)) hcalls
    (f := fun token => token)).mono ?_ ?_
  · rintro _ u ⟨token, rfl, hmeets⟩
    exact hmeets.after hmakes (wants_turnedRound h ho hd)
  · exact fun e u hf => hf.after hmakes (wants_turnedRound h ho hd)

/-! ### What sends nothing -/

theorem Makes.refrains (h : s.Makes [] t) (he : e.isUnaskable = false) : s.Refrains e t := ⟨he, h⟩

theorem refrains_missing {what : Missing} (h : t = s) : s.Refrains what.fault t :=
  ⟨what.fault_isUnaskable, h ▸ .refl t⟩

theorem rests_render (id : TreeId) :
    (render id).Ends s (fun _ t => s.Makes [] t) s.Refrains := by
  by_cases ho : s.isOpen id
  · have hidle : ∀ request, ¬(fun _ => False : Request → Prop) request := fun _ h => h
    exact (sends_render ((Makes.refl s).meets hidle) ho).mono (fun _ _ h => h.makes hidle)
      fun _ _ h => h.refrains hidle
  · unfold render
    refine .bind (checks_open.mono ?_ ?_)
    · rintro _ _ ⟨-, ho'⟩
      exact absurd ho' ho
    · rintro e t ⟨ht, ⟨what, rfl⟩, -⟩
      exact refrains_missing ht

theorem rests_collapse (h : s.Sound) (id : TreeId) (ref : NodeRef) :
    (collapse id ref).Ends s (fun _ t => s.Makes [] t) s.Refrains := by
  have hgiven := Makes.givenUp s ref
  refine ends_collapse h (fun _ _ => refrains_missing rfl)
    (fun _ _ => (Makes.refl s).refrains rfl) (fun _ _ => hgiven) fun _ => ?_
  have hclosed : s.Makes [] ((s.givenUp ref).unfolded ref false) :=
    hgiven.before (.nothing ⟨rfl, rfl, rfl⟩ rfl rfl)
  exact (rests_render id).mono (fun _ _ ht => ht.after hclosed)
    fun _ _ ht => (ht.2.after hclosed).refrains ht.1

theorem rests_jump (id : TreeId) (ref : NodeRef) :
    (jump id ref).Ends s (fun _ t => s.Makes [] t) s.Refrains :=
  ends_jump.mono (fun _ _ h => h ▸ .refl s) fun _ _ h => ⟨h.2, h.1 ▸ .refl s⟩

theorem rests_details (id : TreeId) (ref : NodeRef) :
    (details id ref).Ends s (fun _ t => s.Makes [] t) s.Refrains :=
  ends_details.mono (fun _ _ h => h ▸ .refl s) fun _ _ h => ⟨h.2, h.1 ▸ .refl s⟩

theorem rests_close (h : s.Sound) (handle : Int) :
    (close handle).Ends s (fun _ t => s.Makes [] t) s.Refrains := by
  cases slot : s.registry.slots.get? handle with
  | none =>
    exact ends_close_of_none slot (fun _ => .nothing ⟨rfl, rfl, rfl⟩ rfl rfl)
      fun _ => (Makes.refl s).refrains rfl
  | some id =>
    obtain ⟨kind, hk⟩ := (h.grown id).known
    refine (ends_close slot hk).mono ?_ fun _ _ h => h.elim
    rintro _ _ ⟨-, rfl⟩
    exact .nothing ⟨rfl, rfl, rfl⟩ rfl rfl

theorem rests_setHidden (handle : Int) (hidden : Bool) :
    (setHidden handle hidden).Ends s (fun _ t => s.Makes [] t) s.Refrains := by
  cases slot : s.registry.slots.get? handle with
  | none =>
    unfold Action.Ends
    rw [setHidden_of_none slot]
    exact refrains_missing rfl
  | some id =>
    refine (ends_hide slot hidden).mono ?_ fun _ _ h => h.elim
    rintro _ _ ⟨-, rfl⟩
    exact .nothing ⟨rfl, rfl, rfl⟩ rfl rfl

theorem rests_toggleHidden (kind : Text) :
    (toggleHidden kind).Ends s (fun _ t => s.Makes [] t) s.Refrains := by
  refine ends_toggleHidden (fun e he => (Makes.refl s).refrains ?_) (.refl s)
    fun _ _ _ _ => rests_setHidden _ _
  unfold TreeKind.ofText at he
  split at he
  · cases he
  · obtain rfl := Except.error.inj he
    rfl

end Session

end SymbolTrees
