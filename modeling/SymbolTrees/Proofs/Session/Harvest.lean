import SymbolTrees.Proofs.Session.Course
import SymbolTrees.Proofs.Session.Grafts

/-!
# What becomes of the calls of an answer

An answer with calls costs a node nothing while their symbols are looked up. Whatever the lookups
come to or do not come to, the first drain after that puts all the calls below the node, and the
request is not reported as failed. The one thing that goes wrong is that a lookup is answered with
what cannot be read: it is over before it is read, so if it is the last one, nobody waits for the
calls any more.
-/

namespace SymbolTrees

open SymbolTrees.Server (Outcome Request)

namespace Session

variable {s t u : Session} {k : Token} {inquiry : Inquiry} {calls : List Call} {id : TreeId}
  {ref : NodeRef} {generation : Nat} {direction : CallDirection}
  {came : Nat → Request → Outcome → Prop} {own own' : Owners} {results more : List Resolution}
  {events : List Event} {nodes : List Node}

/-! ### Reports for requests with calls -/

/-- The nodes are those of the calls, one for one and in order. -/
def AreNodesOf (calls : List Call) (nodes : List Node) : Prop :=
  nodes.map Node.call = calls.map fun call => (some call.item, call.ranges)

/-- The result of a request is that all its calls become nodes. -/
def Result.IsHarvest (calls : List Call) (result : Result) : Prop :=
  ∃ nodes, result = .children nodes ∧ AreNodesOf calls nodes

/-- A request with calls is reported with nodes for all of them, unless it is spoilt. -/
theorem Applies.harvests (ha : Applies s results t) (h : s.Sound) (hf : Full came own s)
    {r : Resolution} (hr : r ∈ results) (hi : s.pending.get? r.token = some inquiry)
    (hc : inquiry.calls ≠ []) :
    Result.IsHarvest inquiry.calls r.result ∨ Spoilt came own s.sent r.token inquiry.calls := by
  have unanswered {token : Token} {outcome : Outcome} {rest : List Arrival} {other : Inquiry}
      {result : Result} (ha : s.arrivals = .reply token outcome :: rest)
      (ho : s.pending.get? token = some other) (hr : r ∈ report other result) : False := by
    obtain rfl := List.mem_singleton.1 hr
    obtain rfl := (h.waiting.own _ _ ho).1
    obtain rfl := Option.some.inj (ho.symm.trans hi)
    exact hc (h.calls_eq_nil (ha ▸ List.mem_cons_self) hi)
  have grown {other : Inquiry} {found : List (Option LocatedSymbol)} {ref : NodeRef}
      (ho : s.pending.get? other.token = some other) (hl : found.length = other.calls.length)
      (hr : r ∈ report other (.children (other.calls.zipWith
        (childOf ((s.node ref).depth + 1)) found))) : Result.IsHarvest inquiry.calls r.result := by
    obtain rfl := List.mem_singleton.1 hr
    obtain rfl := Option.some.inj (ho.symm.trans hi)
    have hnodes : AreNodesOf other.calls (s.childrenOf { other with found := found } ref) :=
      calls_childrenOf ref hl
    exact ⟨_, rfl, hnodes⟩
  cases ha with
  | effect effect =>
    cases effect with
    | refuse arrivals pending => exact (unanswered arrivals pending hr).elim
    | pass arrivals pending => exact (unanswered arrivals pending hr).elim
    | adopt arrivals pending => exact (unanswered arrivals pending hr).elim
    | finish arrivals lookup pending tells =>
      refine .inl (grown pending ?_ hr)
      exact tells.finds.length_eq.trans (h.looking.found _ _ pending)
    | _ => cases hr
  | expiry expiry =>
    cases expiry with
    | adopt pending => exact .inl (grown pending (h.looking.found _ _ pending) hr)
    | lapse => cases hr
    | timeOut pending late idle =>
      obtain rfl := List.mem_singleton.1 hr
      obtain rfl := Option.some.inj (pending.symm.trans hi)
      exact .inr (hf _ _ hi hc idle)

/-- What the steps of a drain keep: requests with calls have lookups, and are reported with nodes for
all of them. -/
structure Yields (came : Nat → Request → Outcome → Prop) (s : Session) (own : Owners)
    (results : List Resolution) (t : Session) : Prop where
  chain : Chain Progress s results t
  full : Full came own t
  harvests : ∀ r ∈ results, ∀ inquiry, s.pending.get? r.token = some inquiry → inquiry.calls ≠ [] →
    Result.IsHarvest inquiry.calls r.result ∨ Spoilt came own t.sent r.token inquiry.calls

theorem Yields.applies (hy : Yields came s own results t) (h : s.Sound) (ha : Applies t more u)
    (hagrees : own.Agrees t own') : Yields came s own' (results ++ more) u := by
  have ht := hy.chain.sound lawful_progress h
  have hsent := (lawful_progress.moves ht ha.progress).sent_grows
  refine ⟨hy.chain.tail ha.progress, hy.full.applies ht ha hagrees, fun r hr inquiry hi hc => ?_⟩
  have hmono (hs : Spoilt came own t.sent r.token inquiry.calls) :
      Spoilt came own' u.sent r.token inquiry.calls :=
    hs.mono (fun _ _ _ hc => hc) hagrees.kept fun _ _ _ hs => hs.extend hsent
  rcases List.mem_append.1 hr with hr | hr
  · exact (hy.harvests r hr inquiry hi hc).imp_right hmono
  · obtain ⟨mid, hmid, -⟩ := (lawful_progress.accounts ht ha.progress).known r hr
    obtain ⟨hsame, -⟩ | ⟨hnone, -⟩ := hy.chain.continues h hi hmid
    · rw [← hsame] at hc hmono ⊢
      exact (ha.harvests ht hy.full hr hmid hc).imp_right hmono
    · exact absurd hnone hc

theorem Tracked.yields (h : Tracked came own s) (hf : Full came own s)
    (hc : Chain Applies s results t) :
    ∃ own', Carried came own s results own' t ∧ Yields came s own' results t :=
  h.chain (P := fun own' results u => Yields came s own' results u)
    (fun _ _ _ _ hy same => ⟨hy.chain.log same, hy.full, hy.harvests⟩)
    (fun _ _ _ _ _ _ _ hy ha hagrees => hy.applies h.sound ha hagrees)
    ⟨.refl, hf, fun _ hr => by cases hr⟩ hc

/-! ### Drained sessions -/

/-- The calls are those that a request has got, or will get as soon as the queue is dealt with. -/
inductive Receives (s : Session) (inquiry : Inquiry) (direction : CallDirection) :
    List Call → Prop where
  | known : Receives s inquiry direction inquiry.calls
  | queued {value : Json} {calls : List Call}
    (arrivals : .reply inquiry.token (.answer value) ∈ s.arrivals)
    (read : callsOf direction value = .ok calls) : Receives s inquiry direction calls

/-- What has become of a request that has received its calls, once the session is drained. -/
inductive Harvested (came : Nat → Request → Outcome → Prop) (own : Owners)
    (results : List Resolution) (t : Session) (k : Token) (ref : NodeRef) (calls : List Call) :
    Prop where
  /-- It is reported with the nodes of all its calls in their order, and they stand below the node. -/
  | grown {r : Resolution} {nodes : List Node} (reported : r ∈ results) (token : r.token = k)
    (result : r.result = .children nodes) (only : ∀ r' ∈ results, r'.token = k → r' = r)
    (calls : AreNodesOf calls nodes) (held : t.marks ref = nodes.map Node.mark)
  /-- It is not reported: nothing has become of one of its lookups, and its time is not up. -/
  | waits {new : Inquiry} {j i : Nat} {call : Call} {l : Token}
    (pending : t.pending.get? k = some new) (same : new.calls = calls)
    (timely : t.now.lt new.deadline) (isCall : calls[j]? = some call) (owns : own k j = some i)
    (searched : Searched t.sent i l (.workspaceSymbols call.item.name))
    (silent : ∀ outcome, ¬came i (.workspaceSymbols call.item.name) outcome)
    (unreported : ∀ r ∈ results, r.token ≠ k)

section Drained

variable (h : s.Sound) (hd : Drains s results t) (ht : Tracked came own t) (hf : Full came own t)
  (hp : inquiry.purpose = .expand id ref generation direction) (hn : calls ≠ [])
  (hi : s.pending.get? inquiry.token = some inquiry)
include h hd

include ht hf hn in
/-- A request that is still under way waits for one of its lookups, unless it is spoilt. -/
theorem Drains.waits {new : Inquiry} (hnew : t.pending.get? k = some new) (hc : new.calls = calls) :
    Harvested came own results t k ref calls ∨ Spoilt came own t.sent k calls := by
  subst hc
  have hdrained := hd.drained h
  by_cases hl : new.lookups = []
  · exact .inr (hf k new hnew hn hl)
  · obtain ⟨l, hl⟩ := List.exists_mem_of_ne_nil _ hl
    obtain ⟨j, hj⟩ := ht.sound.looking.listed k new hnew l hl
    have hcall := List.getElem?_eq_getElem (ht.sound.mem_lookups hj hnew).2
    refine .inl ?_
    cases ht.attributed.calls k new j _ hnew hcall with
    | skipped none idle => exact absurd hj (idle l)
    | heard owns searched idle => exact absurd hj (idle l)
    | waits owns searched lookup found queued =>
      refine .waits hnew rfl (hdrained.clock ▸ hdrained.timely k new hnew) hcall owns searched
        (fun outcome hcame => ?_) fun r hr he => ?_
      · have hm := queued outcome hcame
        rw [hdrained.queue] at hm
        cases hm
      · obtain ⟨-, -, -, hover⟩ := hdrained.known r hr
        rw [he, hnew] at hover
        cases hover

include hp hi in
/-- What is reported for a request stands below its node. -/
theorem Drains.grown {r : Resolution} (hr : r ∈ results) (htoken : r.token = inquiry.token)
    (hharvest : Result.IsHarvest calls r.result) :
    Harvested came own results t inquiry.token ref calls := by
  obtain ⟨nodes, hresult, hnodes⟩ := hharvest
  have haccounts := hd.chain.accounts lawful_progress h
  have hpurpose : r.purpose = .expand id ref generation direction := by
    obtain ⟨old, hold, he, -⟩ := haccounts.known r hr
    rw [htoken] at hold
    obtain rfl := Option.some.inj (hold.symm.trans hi)
    exact he.trans hp
  exact .grown hr htoken hresult
    (fun r' hr' he => haccounts.eq_of_token hr' hr (he.trans htoken.symm)) hnodes
    (hd.chain.holds h hr hpurpose hresult).2.2

end Drained

/-- The result of an answer with calls is that they become nodes. -/
theorem Answers.isHarvest {value : Json} {result : Result}
    (hp : inquiry.purpose = .expand id ref generation direction)
    (ha : Answers s inquiry.purpose (.answer value) result)
    (hread : callsOf direction value = .ok calls) (hn : calls ≠ []) :
    Result.IsHarvest calls result := by
  rw [hp] at ha
  cases ha with
  | refused refuses =>
    cases refuses with
    | callsFailed _ _ _ _ unanswered => exact absurd rfl (unanswered value)
    | noCalls _ _ _ read => exact absurd (Except.ok.inj (hread.symm.trans read)) hn
  | passed passes => cases passes
  | @grown _ _ _ _ _ _ found expands read some length =>
    obtain ⟨rfl, rfl, rfl, rfl⟩ := Purpose.expand.inj expands
    obtain rfl := Except.ok.inj (hread.symm.trans read)
    have hnodes : AreNodesOf calls
        (s.childrenOf { inquiry with calls := calls, found := found } ref) :=
      calls_childrenOf ref length
    exact ⟨_, rfl, hnodes⟩

/-- **A drain harvests the calls** of every request whose lookups are all over or whose time is up,
unless one of its lookups was answered with what cannot be read. -/
theorem Tracked.harvests (h : Tracked came own s) (hf : Full came own s) (hd : Drains s results t) :
    ∃ own', own.Agrees s own' ∧ own'.Apart ∧ ∀ inquiry id ref generation direction calls,
      s.pending.get? inquiry.token = some inquiry →
        inquiry.purpose = .expand id ref generation direction → s.isLive inquiry →
          Receives s inquiry direction calls → calls ≠ [] →
            Harvested came own' results t inquiry.token ref calls ∨
              Spoilt came own' t.sent inquiry.token calls := by
  obtain ⟨own', ⟨hagrees, ht, -⟩, hy⟩ := h.yields hf hd.applies
  refine ⟨own', hagrees, ht.attributed.apart, ?_⟩
  intro inquiry id ref generation direction calls hi hp hlive hreceives hn
  have hdrained := hd.drained h.sound
  cases hreceives with
  | known =>
    cases hnew : t.pending.get? inquiry.token with
    | some new =>
      obtain ⟨old, hold, -, hcontinues⟩ := hdrained.kept _ new hnew
      obtain rfl := Option.some.inj (hold.symm.trans hi)
      obtain ⟨hsame, -⟩ | ⟨hnone, -⟩ := hcontinues
      · exact hd.waits h.sound ht hy.full hn hnew hsame
      · exact absurd hnone hn
    | none =>
      have hover := (hd.chain.accounts lawful_progress h.sound).finished _ inquiry hi hnew
      rw [hlive] at hover
      obtain ⟨r, hr, htoken⟩ := hover.resolve_right (by simp)
      rw [← htoken] at hi
      rcases hy.harvests r hr inquiry hi hn with hharvest | hspoilt
      · exact .inl (hd.grown h.sound hp (htoken ▸ hi) hr htoken hharvest)
      · exact .inr (htoken ▸ hspoilt)
  | queued arrivals read =>
    rcases hdrained.applied _ inquiry _ arrivals hi hlive with
      ⟨⟨r, hr, htoken, hanswers⟩, -⟩ | ⟨-, value, waiting, he, hnew, hlooks⟩
    · exact .inl (hd.grown h.sound hp hi hr htoken (hanswers.isHarvest hp read hn))
    · obtain rfl := Outcome.answer.inj he
      obtain ⟨id', ref', generation', direction', hp', hread⟩ := hlooks.read
      obtain ⟨rfl, rfl, rfl, rfl⟩ := Purpose.expand.inj (hp.symm.trans hp')
      exact hd.waits h.sound ht hy.full hn hnew (Except.ok.inj (hread.symm.trans read))

/-! ### After every run -/

/-- What holds of the requests for calls after the run of `events` from `s`. -/
structure Harvest (s : Session) (events : List Event) (own : Owners) : Prop where
  apart : own.Apart
  /-- Also where a drain ended early, a request that has got its calls has a lookup under way, unless
  it is spoilt. -/
  full : ∀ k inquiry, (s.steps events).pending.get? k = some inquiry → inquiry.calls ≠ [] →
    ¬Spoilt (Came s events) own (s.steps events).sent k inquiry.calls → inquiry.lookups ≠ []
  /-- A request that is alive is harvested as soon as all its lookups are over or its time is up,
  unless it is spoilt. -/
  harvested : ∀ results t, drain (s.steps events) = .ok results t →
    ∀ k inquiry id ref generation direction calls, (s.steps events).pending.get? k = some inquiry →
      inquiry.purpose = .expand id ref generation direction → (s.steps events).isLive inquiry →
        Receives (s.steps events) inquiry direction calls → calls ≠ [] →
          ¬Spoilt (Came s events) own t.sent k calls →
            Harvested (Came s events) own results t k ref calls

/-- **No lookup costs a node its children**, but one that is answered with what cannot be read. After
every run, whatever arrived in whatever order, and also where operations failed: when a session is
drained, a request that has received its calls is reported with the nodes of all of them, which
stand below its node, or nothing has become of one of its lookups yet, and its time is not up. -/
theorem harvest_steps (client : Client) (settings : Settings) (root : Path) (now : Number)
    (events : List Event)
    (htime : ∀ reading ∈ readings now events, ∃ d, reading.add settings.timeout = .ok d) :
    ∃ own, Harvest (start client settings root now) events own := by
  obtain ⟨own, h, hfull⟩ := tracked_steps client settings root now events
  have hf := hfull htime
  have hends := ends_drain ((Steady.of_start client settings root now).steps events)
  unfold Action.Ends at hends
  cases hd : drain ((start client settings root now).steps events) with
  | error e u =>
    refine ⟨own, h.attributed.apart, ?_, fun results t he => by cases he.symm.trans hd⟩
    exact fun k inquiry hi hc hn hl => hn (hf k inquiry hi hc hl)
  | ok results t =>
    rw [hd] at hends
    obtain ⟨own', hagrees, hapart, hharvests⟩ := h.harvests hf hends
    have hmoves := hends.chain.moves (fun _ _ _ hu hp => lawful_progress.moves hu hp) h.sound
    refine ⟨own', hapart, fun k inquiry hi hc hn hl => hn ?_, ?_⟩
    · exact (hf k inquiry hi hc hl).mono (fun _ _ _ hc => hc) hagrees.kept fun _ _ _ hs => hs
    · intro results' t' he k inquiry id ref generation direction calls hi hp hlive hreceives hn hclean
      obtain ⟨rfl, rfl⟩ := EStateM.Result.ok.inj (hd.symm.trans he)
      obtain rfl := (h.sound.waiting.own _ _ hi).1
      exact (hharvests inquiry id ref generation direction calls hi hp hlive hreceives hn).resolve_right
        hclean

/-- A session that looks symbols up and gives every request ten seconds. -/
def resolvingSession : Session :=
  start .server ⟨"none", true, true, .int 10, true⟩ ⟨.root, []⟩ (.int 0)

/-- The callers of a function are asked for, there is one, and its symbol is looked up. -/
def lookedUpRun : List Event :=
  [.openCalls ⟨"f", none, [], ⟨⟨0, 0⟩, ⟨0, 0⟩⟩, ⟨⟨0, 0⟩, ⟨0, 0⟩⟩, none, []⟩ (.calls .incoming),
    .settle 0 (.answer (.arr [.obj [("from", .obj [("name", .str "a")])]])), .pump]

/-- While its symbol is looked up, the caller is not lost. -/
theorem harvest_lookedUpRun : (∀ reading ∈ readings (.int 0) lookedUpRun,
    ∃ d, reading.add (.int 10) = .ok d) ∧ ∃ own, Harvest resolvingSession lookedUpRun own := by
  have htime : ∀ reading ∈ readings (.int 0) lookedUpRun, ∃ d, reading.add (.int 10) = .ok d := by
    intro reading hr
    obtain rfl := List.mem_singleton.1 hr
    exact ⟨_, rfl⟩
  exact ⟨htime, harvest_steps .server ⟨"none", true, true, .int 10, true⟩ ⟨.root, []⟩ (.int 0)
    lookedUpRun htime⟩

/-- The lookup is answered with a symbol whose location is a number. -/
def spoiltRun : List Event :=
  lookedUpRun ++ [.settle 1 (.answer (.arr [.obj [("location", .num (.int 5))]])), .pump]

/-- What is reported when it is too late for that: the request, which has got its caller, is said to
have had no answer. -/
theorem timedOut_spoiltRun :
    ((resolvingSession.steps spoiltRun).pending.map fun entry =>
      (entry.2.calls.length, entry.2.lookups)) = [(1, [])] ∧
    ((Event.pump.reports (resolvingSession.steps (spoiltRun ++ [.tick (.int 10)]))).map fun r =>
      match r.result with
      | .failure reason => some reason
      | _ => none) = [some (.timedOut "f")] := by
  decide +kernel

end Session

end SymbolTrees
