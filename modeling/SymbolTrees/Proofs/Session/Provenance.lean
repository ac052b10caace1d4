import SymbolTrees.Proofs.Session.Occurs
import SymbolTrees.Proofs.Session.Operations

/-!
# Where children come from

Whatever stands below a node of a tree of calls was brought by one answer to one request, which
asked for the calls of the item of that node in the direction of the tree. Every request that is
under way is traced to how it was sent, its calls to the answer that they were read from, and the
children of a node to the calls; every move keeps these traces (`Traced.move`).
-/

namespace SymbolTrees

open SymbolTrees.Server (Outcome Recording.answer Request)

/-! ### Requests as they were sent -/

/-- What was sent as number `i`, from zero, is the request `k`, and no lookup. -/
def Asked (sent : List Sent) (i : Nat) (k : Token) (request : Request) : Prop :=
  ∃ r, sent[i]? = some r ∧ r.token = k ∧ r.isLookup = false ∧ r.request = request

section Asked

variable {sent later : List Sent} {i j : Nat} {k : Token} {request other : Request}

theorem Asked.extend (h : Asked sent i k request) (hp : sent <+: later) :
    Asked later i k request := by
  obtain ⟨r, hr, hk⟩ := h
  obtain ⟨more, rfl⟩ := hp
  have hlt := (List.getElem?_eq_some_iff.1 hr).1
  exact ⟨r, by rw [List.getElem?_append_left hlt, hr], hk⟩

/-- The last request that was sent. -/
theorem asked_concat (sent : List Sent) (k : Token) (request : Request) (isOpen : Bool) :
    Asked (sent ++ [⟨k, false, request, isOpen⟩]) sent.length k request :=
  ⟨_, List.getElem?_concat_length, rfl, rfl, rfl⟩

/-- An outcome changes nothing about how requests were sent. -/
theorem Asked.settle (h : Asked sent i k request) (j : Nat) :
    Asked (sent.modify j Sent.settled) i k request := by
  obtain ⟨r, hr, hk⟩ := h
  by_cases hj : j = i
  · exact ⟨r.settled, by simp [hj, hr], hk⟩
  · exact ⟨r, by simp [hj, hr], hk⟩

/-- No two requests were sent with one number. -/
theorem Asked.eq (hn : (sent.map Sent.token).Nodup) (h : Asked sent i k request)
    (h' : Asked sent j k other) : i = j ∧ request = other := by
  obtain ⟨r, hr, hk, -, rfl⟩ := h
  obtain ⟨r', hr', hk', -, rfl⟩ := h'
  obtain rfl := List.inj_on_of_nodup_map hn (List.mem_of_getElem? hr) (List.mem_of_getElem? hr')
    (hk.trans hk'.symm)
  refine ⟨?_, rfl⟩
  have hlt : i < (sent.map Sent.token).length := by
    rw [List.length_map]
    exact (List.getElem?_eq_some_iff.1 hr).1
  refine (List.getElem?_inj hlt hn).1 ?_
  rw [List.getElem?_map, List.getElem?_map, hr, hr']

end Asked

/-- What a recording answers at once is what it has recorded. -/
theorem Client.answer_of_prompt {client : Client} {isLookup : Bool} {token k : Token}
    {request : Request} {value : Json}
    (h : .reply k (.answer value) ∈ client.prompt isLookup token request) :
    isLookup = false ∧ k = token ∧ ∃ recording, client = .replay recording ∧
      Recording.answer recording request.method request.params = .ok value := by
  cases client with
  | server => cases h
  | replay recording =>
    simp only [Client.prompt] at h
    split at h
    · rename_i answer ha
      cases isLookup with
      | true => cases List.mem_singleton.1 h
      | false =>
        cases List.mem_singleton.1 h
        exact ⟨rfl, rfl, recording, rfl, ha⟩
    · cases h

namespace Session

variable {s t : Session} {id : TreeId} {path : List Nat} {n : Node} {k : Token} {d : CallDirection}
  {item : CallItem} {calls : List Call} {answered later : Nat → Request → Json → Prop}
  {since : TreeId → List Nat → Token → Prop}

/-! ### Traces -/

/-- Request `k` has brought the calls of an item: they were read from one answer to it. -/
def Brings (answered : Nat → Request → Json → Prop) (sent : List Sent) (k : Token)
    (d : CallDirection) (item : CallItem) (calls : List Call) : Prop :=
  ∃ i value, Asked sent i k (.calls d item) ∧ answered i (.calls d item) value ∧
    callsOf d value = .ok calls

theorem Brings.extend {sent more : List Sent} (h : Brings answered sent k d item calls)
    (hp : sent <+: more) : Brings answered more k d item calls := by
  obtain ⟨i, value, ha, hv⟩ := h
  exact ⟨i, value, ha.extend hp, hv⟩

theorem Brings.settle {sent : List Sent} (h : Brings answered sent k d item calls) (i : Nat) :
    Brings answered (sent.modify i Sent.settled) k d item calls := by
  obtain ⟨j, value, ha, hv⟩ := h
  exact ⟨j, value, ha.settle i, hv⟩

theorem Brings.mono {sent : List Sent} (h : Brings answered sent k d item calls)
    (hl : ∀ i request value, answered i request value → later i request value) :
    Brings later sent k d item calls := by
  obtain ⟨i, value, ha, hv, hc⟩ := h
  exact ⟨i, value, ha, hl _ _ _ hv, hc⟩

/-- Request `k`, which asked for the calls of the item of a node in the direction of its tree, has
brought `calls` so far. -/
def Expects (answered : Nat → Request → Json → Prop) (s : Session) (id : TreeId) (n : Node)
    (k : Token) (calls : List Call) : Prop :=
  ∃ i d item, Asked s.sent i k (.calls d item) ∧ (s.tree id).direction = .calls d ∧
    n.payload.callItem? = some item ∧ (calls ≠ [] → Brings answered s.sent k d item calls)

/-- The children of a node are those of the calls that request `k` has brought. -/
def Fed (answered : Nat → Request → Json → Prop) (s : Session) (d : CallDirection) (n : Node)
    (k : Token) : Prop :=
  ∃ item calls, Brings answered s.sent k d item calls ∧ n.payload.callItem? = some item ∧
    n.children.map Node.call = calls.map fun call => (some call.item, call.ranges)

/-- What is traced, if `answered` tells which requests were answered with what, and `since` which
requests can be for the node at a path. -/
structure Traced (answered : Nat → Request → Json → Prop) (since : TreeId → List Nat → Token → Prop)
    (s : Session) : Prop where
  /-- An answer in the queue is one to the request that it names. -/
  queued : ∀ k value, .reply k (.answer value) ∈ s.arrivals →
    ∃ i request, Asked s.sent i k request ∧ answered i request value
  waiting : ∀ id path n k inquiry, s.Occurs id path n → n.pending = some k →
    s.pending.get? k = some inquiry → since id path k ∧ Expects answered s id n k inquiry.calls
  children : ∀ id path n d, s.Occurs id path n → (s.tree id).direction = .calls d →
    n.children ≠ [] → ∃ k, since id path k ∧ Fed answered s d n k

/-- Requests that are new can be for all nodes, and all requests for the nodes of new trees. -/
structure Lasting (since : TreeId → List Nat → Token → Prop) (s : Session) : Prop where
  next : ∀ id path k, s.nextToken ≤ k → since id path k
  planted : ∀ id path k, s.registry.trees.length ≤ id → since id path k

theorem Lasting.move (hl : Lasting since s) (h : s.Sound) (hm : Move s t) : Lasting since t :=
  ⟨fun id path k hk => hl.next id path k (Int.le_trans hm.nextToken_le hk),
    fun id path k hid => hl.planted id path k (Nat.le_trans (h.ages hm).length hid)⟩

theorem traced_start (client : Client) (settings : Settings) (root : Path) (now : Number) :
    Traced answered since (start client settings root now) := by
  refine ⟨fun k value ha => (by cases ha), fun id path n k inquiry _ _ hi => (by cases hi), ?_⟩
  intro id path n d ho
  cases ho.isOpen

theorem Traced.mono (ht : Traced answered since s)
    (hl : ∀ i request value, answered i request value → later i request value) :
    Traced later since s := by
  refine ⟨?_, ?_, ?_⟩
  · intro k value ha
    obtain ⟨i, request, hs, hv⟩ := ht.queued k value ha
    exact ⟨i, request, hs, hl _ _ _ hv⟩
  · intro id path n k inquiry ho hw hi
    obtain ⟨hk, i, d, item, hs, hd, hp, hb⟩ := ht.waiting id path n k inquiry ho hw hi
    exact ⟨hk, i, d, item, hs, hd, hp, fun hc => (hb hc).mono hl⟩
  · intro id path n d ho hd hc
    obtain ⟨k, hk, item, calls, hb, he⟩ := ht.children id path n d ho hd hc
    exact ⟨k, hk, item, calls, hb.mono hl, he⟩

/-- The nodes that a request brings are those of its calls. -/
theorem calls_childrenOf {inquiry : Inquiry} (ref : NodeRef)
    (hl : inquiry.found.length = inquiry.calls.length) :
    (s.childrenOf inquiry ref).map Node.call =
      inquiry.calls.map fun call => (some call.item, call.ranges) := by
  have hcall (depth : Int) (call : Call) (symbol : Option LocatedSymbol) :
      (childOf depth call symbol).call = (some call.item, call.ranges) := by
    obtain ⟨payload, hp, he⟩ := childOf_eq depth call symbol
    rw [he, ← hp]
    rfl
  unfold childrenOf
  rw [List.map_zipWith]
  simp only [hcall]
  refine List.ext_getElem? ?_
  intro i
  rw [List.getElem?_zipWith, List.getElem?_map]
  cases hi : inquiry.calls[i]? with
  | none => rfl
  | some call =>
    have hlt : i < inquiry.found.length := hl ▸ (List.getElem?_eq_some_iff.1 hi).1
    rw [List.getElem?_eq_getElem hlt]
    rfl

section Move

variable (h : s.Sound) (hl : Lasting since s) (ht : Traced answered since s) (hm : Move s t)
include h hl ht hm

/-- A node that waits after a move waited before, or has just asked. -/
theorem Traced.waiting_move {inquiry : Inquiry} (ho : t.Occurs id path n) (hw : n.pending = some k)
    (hi : t.pending.get? k = some inquiry) :
    since id path k ∧ Expects answered t id n k inquiry.calls := by
  have idle (hidle : n.pending = none) : False := by
    rw [hw] at hidle
    cases hidle
  cases h.origin hm ho with
  | bare leaf hidle => exact (idle hidle).elim
  | grafted _ _ _ _ _ _ _ hidle => exact (idle hidle).elim
  | copied _ _ _ _ _ hidle => exact (idle hidle).elim
  | outlined direction =>
    have hf := (((h.move hm).fits ho).waiting (by rw [hw]; simp)).1
    rw [direction] at hf
    cases hf
  | @stayed x occurs payload children direction waits =>
    -- What was under way before is waited for by the node that waited for it.
    have old {old : Inquiry} (hold : s.pending.get? k = some old) : x.pending = some k := by
      apply (waits k hw).resolve_right
      intro he
      rw [he, h.waiting.get?_next] at hold
      cases hold
    cases hm.pends hi with
    | @asked other ref d item fresh askable purpose calls registry sent =>
      obtain ⟨ref', d', hp, hpath⟩ := ((h.move hm).waiting.nodes _ _ _ _ ho.found hw).2 inquiry hi
      rw [purpose] at hp
      obtain ⟨rfl, rfl, -, -⟩ := Purpose.expand.inj hp
      have hn : x = s.node ref := by
        have ho' := askable.member.occurs h
        rw [hpath] at ho'
        exact Option.some.inj (occurs.found.symm.trans ho'.found)
      refine ⟨hl.next _ _ _ (Int.le_of_eq fresh.symm), _, d, item, sent ▸ asked_concat ..,
        direction.trans askable.direction, ?_, fun hc => absurd calls hc⟩
      rw [payload, hn, askable.item]
    | inquired fresh opens =>
      obtain ⟨ref', d', hp, -⟩ := ((h.move hm).waiting.nodes _ _ _ _ ho.found hw).2 inquiry hi
      exact absurd hp (opens.ne_expand _ _ _ _)
    | @stayed was pending purpose calls =>
      obtain ⟨hk, i, d, item, hs, hd, hp, hb⟩ := ht.waiting _ _ _ _ _ occurs (old pending) pending
      refine ⟨hk, i, d, item, hs.extend hm.sent_grows, direction.trans hd, payload ▸ hp, ?_⟩
      rw [calls]
      exact fun hc => (hb hc).extend hm.sent_grows
    | @answered was id' ref generation d' value rest pending purpose live expands arrivals read =>
      obtain ⟨hk, i, d, item, hs, hd, hp, -⟩ := ht.waiting _ _ _ _ _ occurs (old pending) pending
      obtain ⟨j, request, hs', hv⟩ := ht.queued k value (arrivals ▸ List.mem_cons_self)
      obtain ⟨rfl, rfl⟩ := hs.eq h.queued.distinct hs'
      obtain ⟨ref', e, hp', -⟩ := (h.waiting.nodes _ _ _ _ occurs.found (old pending)).2 was pending
      rw [expands] at hp'
      obtain ⟨rfl, rfl, rfl, rfl⟩ := Purpose.expand.inj hp'
      obtain rfl := Direction.calls.inj (hd.symm.trans ((h.bound pending expands).2.direction rfl))
      have hs' := hs.extend hm.sent_grows
      exact ⟨hk, i, d, item, hs', direction.trans hd, payload ▸ hp,
        fun _ => ⟨i, value, hs', hv, read⟩⟩

/-- The children of a node are those that it had, or those of the request that it waited for. -/
theorem Traced.children_move (ho : t.Occurs id path n) (hd : (t.tree id).direction = .calls d)
    (hc : n.children ≠ []) : ∃ k, since id path k ∧ Fed answered t d n k := by
  -- Children for the calls of another node were brought as its children were.
  have like {other : TreeId} {path' : List Nat} {x : Node} (occurs : s.Occurs other path' x)
      (payload : n.payload = x.payload)
      (children : n.children.map Node.call = x.children.map Node.call)
      (direction : (t.tree id).direction = (s.tree other).direction) :
      ∃ k, since other path' k ∧ Fed answered t d n k := by
    have hx : x.children ≠ [] := by
      intro hnil
      rw [hnil, List.map_nil, List.map_eq_nil_iff] at children
      exact hc children
    obtain ⟨k, hk, item, calls, hb, hp, he⟩ :=
      ht.children _ _ _ _ occurs (direction.symm.trans hd) hx
    exact ⟨k, hk, item, calls, hb.extend hm.sent_grows, payload ▸ hp, children.trans he⟩
  cases h.origin hm ho with
  | bare leaf hidle => exact absurd leaf hc
  | outlined direction => cases hd.symm.trans direction
  | stayed occurs payload children direction => exact like occurs payload children direction
  | copied planted occurs payload children direction =>
    obtain ⟨k, -, hk⟩ := like occurs payload children direction
    exact ⟨k, hl.planted id path k (Nat.le_of_eq planted.symm), hk⟩
  | @grafted inquiry ref generation d' pending live purpose place some payload children idle
      direction =>
    obtain ⟨hm', hw, hd'⟩ := h.live pending purpose live
    obtain ⟨hk, i, e, item, -, he, hp, hb⟩ := ht.waiting _ _ _ _ _ (hm'.occurs h) hw pending
    obtain rfl := Direction.calls.inj (he.symm.trans hd')
    obtain rfl := Direction.calls.inj (hd.symm.trans direction)
    refine ⟨_, place ▸ hk, item, _, (hb some).extend hm.sent_grows, payload ▸ hp, ?_⟩
    rw [children]
    exact calls_childrenOf ref (h.looking.found _ _ pending)

/-- **Every move keeps the traces.** -/
theorem Traced.move (hrec : ∀ recording i request value, s.client = .replay recording →
    Recording.answer recording request.method request.params = .ok value →
      answered i request value) : Traced answered since t where
  queued k value ha := by
    rcases hm.arrivals_cases ha with ha | ⟨isLookup, request, hs, ha⟩
    · obtain ⟨i, request, hs, hv⟩ := ht.queued k value ha
      exact ⟨i, request, hs.extend hm.sent_grows, hv⟩
    · obtain ⟨rfl, rfl, recording, hr, hv⟩ := Client.answer_of_prompt ha
      exact ⟨_, request, hs ▸ asked_concat .., hrec recording _ request value hr hv⟩
  waiting _ _ _ _ _ ho hw hi := ht.waiting_move h hl hm ho hw hi
  children _ _ _ _ ho hd hc := ht.children_move h hl hm ho hd hc

end Move

theorem Traced.moves (h : s.Sound) (hl : Lasting since s) (ht : Traced answered since s)
    (hrec : ∀ recording i request value, s.client = .replay recording →
      Recording.answer recording request.method request.params = .ok value →
        answered i request value) (hm : Moves s t) :
    t.client = s.client ∧ Lasting since t ∧ Traced answered since t := by
  induction hm with
  | refl => exact ⟨rfl, hl, ht⟩
  | tail hm hmove ih =>
    obtain ⟨hc, hl, ht⟩ := ih
    have h := h.moves hm
    exact ⟨hmove.client_eq.trans hc, hl.move h hmove, ht.move h hl hmove (hc ▸ hrec)⟩

/-- An outcome joins the queue. -/
theorem Traced.arrived (ht : Traced answered since s) {i : Nat} {request : Sent} {outcome : Outcome}
    (hr : s.sent[i]? = some request)
    (ha : ∀ value, outcome = .answer value → answered i request.request value) :
    Traced answered since (s.arrived i request outcome) := by
  refine ⟨?_, ?_, ?_⟩
  · intro k value hm
    rcases List.mem_append.1 hm with hm | hm
    · obtain ⟨j, other, hs, hv⟩ := ht.queued k value hm
      exact ⟨j, other, hs.settle i, hv⟩
    · have he := List.mem_singleton.1 hm
      unfold Arrival.of at he
      split at he
      · cases he
      · rename_i hl
        obtain ⟨rfl, ho⟩ := Arrival.reply.inj he
        have hs : Asked s.sent i request.token request.request :=
          ⟨request, hr, rfl, by simpa using hl, rfl⟩
        exact ⟨i, request.request, hs.settle i, ha value ho.symm⟩
  · intro id path n k inquiry ho hw hi
    obtain ⟨hk, j, d, item, hs, hd, hp, hb⟩ :=
      ht.waiting id path n k inquiry ⟨ho.isOpen, ho.found⟩ hw hi
    exact ⟨hk, j, d, item, hs.settle i, hd, hp, fun hc => (hb hc).settle i⟩
  · intro id path n d ho hd hc
    obtain ⟨k, hk, item, calls, hb, he⟩ := ht.children id path n d ⟨ho.isOpen, ho.found⟩ hd hc
    exact ⟨k, hk, item, calls, hb.settle i, he⟩

theorem Traced.ticked (ht : Traced answered since s) (now : Number) :
    Traced answered since (s.ticked now) :=
  ⟨ht.queued, fun id path n k inquiry ho => ht.waiting id path n k inquiry ⟨ho.isOpen, ho.found⟩,
    fun id path n d ho => ht.children id path n d ⟨ho.isOpen, ho.found⟩⟩

/-! ### Requests under way -/

/-- What is under way was sent as what it is for. -/
def Filed (s : Session) : Prop :=
  ∀ k inquiry, s.pending.get? k = some inquiry →
    ∃ i request, Asked s.sent i k request ∧ request.method = inquiry.purpose.method

theorem Filed.move (h : s.Filed) (hm : Move s t) : t.Filed := by
  have stays {k : Token} {old new : Inquiry} (hi : s.pending.get? k = some old)
      (hp : new.purpose = old.purpose) :
      ∃ i request, Asked t.sent i k request ∧ request.method = new.purpose.method := by
    obtain ⟨i, request, ha, hmethod⟩ := h k old hi
    exact ⟨i, request, ha.extend hm.sent_grows, hp ▸ hmethod⟩
  intro k new hi
  cases hm.pends hi with
  | asked fresh askable purpose calls registry sent =>
    exact ⟨_, _, sent ▸ asked_concat .., by rw [purpose]; rfl⟩
  | inquired fresh opens calls sent =>
    refine ⟨_, _, sent ▸ asked_concat .., ?_⟩
    generalize new.purpose = purpose at opens
    cases opens <;> rfl
  | stayed pending purpose => exact stays pending purpose
  | answered pending purpose => exact stays pending purpose

theorem Filed.moves (h : s.Filed) (hm : Moves s t) : t.Filed := by
  induction hm with
  | refl => exact h
  | tail _ hmove ih => exact ih.move hmove

theorem filed_steps (client : Client) (settings : Settings) (root : Path) (now : Number)
    (events : List Event) : ((start client settings root now).steps events).Filed := by
  refine steps_induction (P := fun _ t => t.Filed) (sound_start client settings root now)
    (fun _ _ hi => by cases hi) (fun _ _ _ h => h) (fun _ _ _ h => h)
    (fun _ _ _ _ h hm => h.move hm) ?_ events
  intro before i request outcome h _ _ k inquiry hi
  obtain ⟨j, asked, ha, hmethod⟩ := h k inquiry hi
  exact ⟨j, asked, ha.settle i, hmethod⟩

/-! ### After every run -/

/-- In the run of `events` from `s`, the request that was sent as number `i` was answered with
`value`: by the server, whose answers count once, or by a recording. -/
def Answered (s : Session) (events : List Event) (i : Nat) (request : Request) (value : Json) :
    Prop :=
  (∃ before after, events = before ++ .settle i (.answer value) :: after ∧
    (Event.settle i (.answer value)).act.answer (s.steps before) = .ok (.done true)) ∨
  ∃ recording, s.client = .replay recording ∧
    Recording.answer recording request.method request.params = .ok value

theorem Answered.append {events : List Event} {i : Nat} {request : Request} {value : Json}
    (h : Answered s events i request value) (more : List Event) :
    Answered s (events ++ more) i request value := by
  rcases h with ⟨before, after, rfl, ha⟩ | hr
  · exact .inl ⟨before, after ++ more, by simp, ha⟩
  · exact .inr hr

/-- **Children stay traced to the answers that brought them**, however a run goes on. -/
theorem Traced.steps {first : List Event} (h : s.Sound) (hl : Lasting since (s.steps first))
    (hc : (s.steps first).client = s.client)
    (ht : Traced (Answered s first) since (s.steps first)) (events : List Event) :
    (s.steps (first ++ events)).client = s.client ∧
      Traced (Answered s (first ++ events)) since (s.steps (first ++ events)) := by
  have hinv := steps_induction (P := fun more t => t.client = s.client ∧ Lasting since t ∧
    Traced (Answered s (first ++ more)) since t) (h.steps first) ⟨hc, hl, ?_⟩ ?_ ?_ ?_ ?_ events
  · rw [steps_append]
    exact ⟨hinv.1, hinv.2.2⟩
  · rwa [List.append_nil]
  · rintro more e t ⟨hc, hl, ht⟩
    refine ⟨hc, hl, ht.mono fun i request value ha => ?_⟩
    rw [← List.append_assoc]
    exact ha.append [e]
  · rintro more t reading ⟨hc, hl, ht⟩
    exact ⟨hc, ⟨hl.next, hl.planted⟩, ht.ticked reading⟩
  · rintro more t u h ⟨hc, hl, ht⟩ hm
    refine ⟨hm.client_eq.trans hc, hl.move h hm, ht.move h hl hm ?_⟩
    intro recording i request value hr ha
    exact .inr ⟨recording, hc.symm.trans hr, ha⟩
  · rintro more i request outcome ⟨hc, hl, ht⟩ hs ho
    refine ⟨hc, ⟨hl.next, hl.planted⟩, ht.arrived hs ?_⟩
    rintro value rfl
    refine .inl ⟨first ++ more, [], (List.append_assoc ..).symm, ?_⟩
    rw [steps_append, Action.answer, settle_of_isOpen hs ho]

theorem traced_steps (client : Client) (settings : Settings) (root : Path) (now : Number)
    (events : List Event) : ((start client settings root now).steps events).client = client ∧
      Traced (Answered (start client settings root now) events) (fun _ _ _ => True)
        ((start client settings root now).steps events) := by
  have hl : Lasting (fun _ _ _ => True) ((start client settings root now).steps []) :=
    ⟨fun _ _ _ _ => trivial, fun _ _ _ _ => trivial⟩
  exact Traced.steps (sound_start ..) hl rfl (traced_start ..) events

/-- The nodes are those of the objects of an answer to a request for calls, one for one and in
order: each has the item at the other end of its call, and the places where the call is made. -/
def Mirror (d : CallDirection) (value : Json) (nodes : List Node) : Prop :=
  ∃ entries, objects value = .ok entries ∧
    List.Forall₂ (fun entry node => ∃ call, Call.ofJson entry d.peer = .ok call ∧
      node.payload.callItem? = some call.item ∧ node.callRanges = call.ranges) entries nodes

theorem mirror_of_calls {value : Json} {calls : List Call} {nodes : List Node}
    (hc : callsOf d value = .ok calls)
    (hn : nodes.map Node.call = calls.map fun call => (some call.item, call.ranges)) :
    Mirror d value nodes := by
  obtain ⟨entries, he, hread⟩ := Except.of_bind hc
  refine ⟨entries, he, ?_⟩
  have hf := Except.of_mapM hread
  clear hc he hread
  induction hf generalizing nodes with
  | nil =>
    obtain rfl := List.map_eq_nil_iff.1 hn
    exact .nil
  | cons hcall _ ih =>
    obtain ⟨node, rest, rfl, hnode, hrest⟩ := List.map_eq_cons_iff.1 hn
    obtain ⟨hp, hr⟩ := Prod.mk.inj hnode
    exact .cons ⟨_, hcall, hp, hr⟩ (ih hrest)

/-- The children of a node come from request `k`: it asked for the calls of the item of this node
in the direction `d`, it was answered in the run of `events` from `s`, and they are the entries of
this one answer, all of them and in order. -/
def Sourced (s : Session) (events : List Event) (d : CallDirection) (n : Node) (k : Token) : Prop :=
  ∃ i r value item, (s.steps events).sent[i]? = some r ∧ r.token = k ∧ r.isLookup = false ∧
    r.request.method = .calls d ∧ r.request.params = .obj [("item", item.toJson)] ∧
      n.payload.callItem? = some item ∧ Answered s events i r.request value ∧
        Mirror d value n.children

theorem Fed.sourced {events : List Event} (h : Fed (Answered s events) (s.steps events) d n k) :
    Sourced s events d n k := by
  obtain ⟨item, calls, ⟨i, value, ⟨r, hr, hk, hl, hq⟩, ha, hv⟩, hp, he⟩ := h
  refine ⟨i, r, value, item, hr, hk, hl, ?_, ?_, hp, hq ▸ ha, mirror_of_calls hv he⟩
  · rw [hq]
    rfl
  · rw [hq]
    rfl

/-- **Children come from one answer to one request.** After every run, whatever arrived in whatever
order, and also where operations failed: if a node of an open tree of calls has children, then a
request was made for the calls of its item in the direction of its tree, that request was answered,
and the children are the entries of this one answer, all of them and in order. -/
theorem provenance_steps (client : Client) (settings : Settings) (root : Path) (now : Number)
    (events : List Event) {s : Session} (hs : s = start client settings root now)
    (ho : (s.steps events).Occurs id path n) (hd : ((s.steps events).tree id).direction = .calls d)
    (hc : n.children ≠ []) : ∃ k, Sourced s events d n k := by
  subst hs
  obtain ⟨-, ht⟩ := traced_steps client settings root now events
  obtain ⟨k, -, hk⟩ := ht.children id path n d ho hd hc
  exact ⟨k, hk.sourced⟩

/-- A session that gives every request ten seconds. -/
def freshSession : Session :=
  start .server ⟨"none", true, false, .int 10, true⟩ ⟨.root, []⟩ (.int 0)

/-- The callers of a function are asked for, and there is one. -/
def answeredRun : List Event :=
  [.openCalls ⟨"f", none, [], ⟨⟨0, 0⟩, ⟨0, 0⟩⟩, ⟨⟨0, 0⟩, ⟨0, 0⟩⟩, none, []⟩ (.calls .incoming),
    .expand 0 ⟨0, 0, []⟩, .settle 0 (.answer (.arr [.obj []])), .pump]

/-- The caller of a function comes from the answer in which it stood. -/
theorem provenance_answeredRun :
    (freshSession.steps answeredRun).Occurs 0 [] ((freshSession.steps answeredRun).tree 0).root ∧
      ((freshSession.steps answeredRun).tree 0).direction = .calls .incoming ∧
        ((freshSession.steps answeredRun).tree 0).root.children ≠ [] ∧
          ∃ k, Sourced freshSession answeredRun .incoming
            ((freshSession.steps answeredRun).tree 0).root k := by
  have ho : (freshSession.steps answeredRun).Occurs 0 []
      ((freshSession.steps answeredRun).tree 0).root := ⟨by decide +kernel, rfl⟩
  have hd : ((freshSession.steps answeredRun).tree 0).direction = .calls .incoming := by
    decide +kernel
  have hc : ((freshSession.steps answeredRun).tree 0).root.children ≠ [] :=
    List.isEmpty_eq_false_iff.1 (by decide +kernel)
  exact ⟨ho, hd, hc, provenance_steps .server _ _ _ answeredRun rfl ho hd hc⟩

end Session

end SymbolTrees
