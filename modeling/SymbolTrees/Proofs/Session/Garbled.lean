import SymbolTrees.Proofs.Session.Course

/-!
# What cannot be dealt with

A session is drained to the end unless something that has arrived cannot be read, or a recording
cannot be asked, or a deadline cannot be told. All of these reasons are told of the session as it was
before (`Garbled`), and so is what is reported (`Chain.stems`): the queue is as it was but for what
a recording answers to lookups.
-/

namespace SymbolTrees

open SymbolTrees.Server (Outcome Recording.answer Request)

/-- An outline is made of the entries of an answer. -/
theorem Node.outlineOfJson_arr {uri : Text} {value : Json} {symbols : List Json}
    (h : value.entries = .ok symbols) : outlineOfJson uri (.arr symbols) = outlineOfJson uri value := by
  unfold outlineOfJson
  rw [h]
  rfl

theorem Node.outlineOfJson_of_entries_error {uri : Text} {value : Json} {reason : Malformed}
    (h : value.entries = .error reason) : ∃ e, outlineOfJson uri value = .error e := by
  unfold outlineOfJson
  rw [h]
  cases documentRoot uri <;> exact ⟨_, rfl⟩

namespace Session

variable {s t u : Session} {inquiry : Inquiry} {arrival : Arrival} {results more : List Resolution}
  {r : Resolution} {k : Token} {outcome : Outcome} {came : Nat → Request → Outcome → Prop}
  {own : Owners} {request : Request}

/-! ### The queue -/

/-- Answers to requests do not arrive while a session is drained. -/
theorem Chain.mem_reply (hc : Chain Progress s results t) (ha : .reply k outcome ∈ t.arrivals) :
    .reply k outcome ∈ s.arrivals := by
  induction hc with
  | refl => exact ha
  | log _ _ ih => exact ih ha
  | tail _ next ih =>
    cases next with
    | expiry expiry => exact ih (expiry.arrivals ▸ ha)
    | effect effect =>
      obtain ⟨first, rest, more, ht, hu, hmore, -⟩ := effect.arrivals
      rw [hu] at ha
      refine ih (ht ▸ List.mem_cons_of_mem _ ((List.mem_append.1 ha).resolve_right fun hm => ?_))
      cases hmore _ hm

/-- What is in the queue for a request was there for it before. -/
theorem Chain.unread (h : s.Sound) (hc : Chain Progress s results t)
    (ha : .reply k outcome ∈ t.arrivals) (hi : t.pending.get? k = some inquiry) :
    ∃ old, .reply old.token outcome ∈ s.arrivals ∧ s.pending.get? old.token = some old ∧
      inquiry.purpose = old.purpose ∧ s.isLive old = t.isLive inquiry := by
  obtain ⟨old, hold, hp, hl⟩ := (hc.accounts lawful_progress h).kept _ _ hi
  obtain rfl := (h.waiting.own _ _ hold).1
  exact ⟨old, hc.mem_reply ha, hold, hp, hl⟩

/-- What an answer in the queue leads a session to ask: for the symbols of calls, or for the first
level of a tree. -/
inductive Elicits (s : Session) : Request → Prop where
  | lookup {value : Json} {inquiry : Inquiry} {id : TreeId} {ref : NodeRef} {generation : Nat}
    {direction : CallDirection} {calls : List Call} {call : Call}
    (arrivals : .reply inquiry.token (.answer value) ∈ s.arrivals)
    (pending : s.pending.get? inquiry.token = some inquiry)
    (purpose : inquiry.purpose = .expand id ref generation direction) (live : s.isLive inquiry)
    (read : callsOf direction value = .ok calls) (isCall : call ∈ calls)
    (resolves : s.settings.resolveSymbols) : Elicits s (.workspaceSymbols call.item.name)
  | level {value : Json} {inquiry : Inquiry} {uri : Text} {direction : CallDirection}
    {item : CallItem} {rest : List CallItem}
    (arrivals : .reply inquiry.token (.answer value) ∈ s.arrivals)
    (pending : s.pending.get? inquiry.token = some inquiry)
    (purpose : inquiry.purpose = .openCalls uri direction)
    (read : itemsOf value = .ok (item :: rest)) : Elicits s (.calls direction item)

theorem Elicits.since (he : t.Elicits request) (h : s.Sound) (hc : Chain Progress s results t) :
    s.Elicits request := by
  cases he with
  | lookup arrivals pending purpose live read isCall resolves =>
    obtain ⟨old, ha, hold, hp, hl⟩ := hc.unread h arrivals pending
    exact .lookup ha hold (hp ▸ purpose) (hl ▸ live) read isCall
      ((hc.frame lawful_progress).settings ▸ resolves)
  | level arrivals pending purpose read =>
    obtain ⟨old, ha, hold, hp, -⟩ := hc.unread h arrivals pending
    exact .level ha hold (hp ▸ purpose) read

/-- The arrival was in the queue, or it is what a recording answers to a lookup that was sent
since. -/
inductive Arises (s : Session) (sent : List Sent) (arrival : Arrival) : Prop where
  | queued (arrivals : arrival ∈ s.arrivals)
  | prompted {p : Sent} (mem : p ∈ sent) (elicits : s.Elicits p.request)
    (prompt : arrival ∈ s.client.prompt true p.token p.request)

theorem Effect.arises (h : s.Sound) (he : Effect s results t) (ha : arrival ∈ t.arrivals) :
    s.Arises t.sent arrival := by
  have old {first : Arrival} {rest : List Arrival} (hs : s.arrivals = first :: rest)
      (hm : arrival ∈ rest) : s.Arises t.sent arrival := .queued (hs ▸ List.mem_cons_of_mem _ hm)
  cases he with
  | refuse arrivals =>
    rw [spends_failed.arrivals] at ha
    exact old arrivals ha
  | seek arrivals pending purpose live read some resolves timely =>
    obtain rfl := (h.waiting.own _ _ pending).1
    unfold rearmed at ha old ⊢
    rw [arrivals_seeking_eq] at ha
    rcases List.mem_append.1 ha with ha | ha
    · exact old arrivals ha
    · obtain ⟨p, hp, hprompt⟩ := List.mem_flatMap.1 ha
      obtain ⟨hlookup, call, hcall, hrequest⟩ := isLookup_of_mem_searches hp
      rw [hlookup] at hprompt
      refine .prompted ?_ (hrequest ▸ .lookup (arrivals ▸ List.mem_cons_self) pending purpose live
        read hcall resolves) hprompt
      rw [sent_seeking]
      exact List.mem_append_right _ hp
  | ignore arrivals => exact old arrivals ha
  | stale arrivals => exact old arrivals ha
  | pass arrivals => exact old arrivals ha
  | adopt arrivals => exact old arrivals ha
  | find arrivals => exact old arrivals ha
  | finish arrivals => exact old arrivals ha
  | lapse arrivals => exact old arrivals ha

/-- **What is in the queue was there before**, but for what a recording answers to lookups. -/
theorem Chain.arises (h : s.Sound) (hc : Chain Progress s results t) (ha : arrival ∈ t.arrivals) :
    s.Arises t.sent arrival := by
  induction hc with
  | refl => exact .queued ha
  | log _ _ ih => exact ih ha
  | @tail results more t u before next ih =>
    have ht := before.sound lawful_progress h
    have hgrows := (lawful_progress.moves ht next).sent_grows
    have old (ha : arrival ∈ t.arrivals) : s.Arises u.sent arrival := by
      cases ih ha with
      | queued arrivals => exact .queued arrivals
      | prompted mem elicits prompt => exact .prompted (hgrows.subset mem) elicits prompt
    cases next with
    | expiry expiry => exact old (expiry.arrivals ▸ ha)
    | effect effect =>
      cases effect.arises ht ha with
      | queued arrivals => exact old arrivals
      | prompted mem elicits prompt =>
        exact .prompted mem (elicits.since h before)
          ((before.frame lawful_progress).client ▸ prompt)

/-! ### Reports -/

/-- Where a report comes from: a request has failed, a node has got its nodes, or an answer in the
queue was passed on. -/
inductive Stems (s : Session) (r : Resolution) : Prop where
  | failed {reason : Failure} (result : r.result = .failure reason)
  | grown {id : TreeId} {ref : NodeRef} {generation : Nat} {direction : CallDirection}
    {nodes : List Node} (purpose : r.purpose = .expand id ref generation direction)
    (result : r.result = .children nodes)
  | passed {inquiry : Inquiry} {value : Json}
    (arrivals : .reply inquiry.token (.answer value) ∈ s.arrivals)
    (pending : s.pending.get? inquiry.token = some inquiry) (purpose : r.purpose = inquiry.purpose)
    (passes : Passes inquiry.purpose value r.result)

theorem Progress.stems (h : s.Sound) (hp : Progress s results t) (hr : r ∈ results) : s.Stems r := by
  cases hp with
  | effect effect =>
    cases effect with
    | refuse => exact .failed (congrArg Resolution.result (List.mem_singleton.1 hr))
    | pass arrivals pending passes =>
      obtain rfl := List.mem_singleton.1 hr
      obtain rfl := (h.waiting.own _ _ pending).1
      exact .passed (arrivals ▸ List.mem_cons_self) pending rfl passes
    | adopt arrivals pending purpose =>
      obtain rfl := List.mem_singleton.1 hr
      exact .grown purpose rfl
    | finish arrivals lookup pending tells last purpose =>
      obtain rfl := List.mem_singleton.1 hr
      exact .grown purpose rfl
    | _ => cases hr
  | expiry expiry =>
    cases expiry with
    | adopt pending late looking purpose =>
      obtain rfl := List.mem_singleton.1 hr
      exact .grown purpose rfl
    | lapse => cases hr
    | timeOut => exact .failed (congrArg Resolution.result (List.mem_singleton.1 hr))

/-- **What is reported comes of what was there before.** -/
theorem Chain.stems (h : s.Sound) (hc : Chain Progress s results t) (hr : r ∈ results) :
    s.Stems r := by
  induction hc with
  | refl => cases hr
  | log _ _ ih => exact ih hr
  | tail before next ih =>
    rcases List.mem_append.1 hr with hr | hr
    · exact ih hr
    · cases next.stems (before.sound lawful_progress h) hr with
      | failed result => exact .failed result
      | grown purpose result => exact .grown purpose result
      | @passed inquiry value arrivals pending purpose passes =>
        obtain ⟨old, hold, hsame, -⟩ := (before.accounts lawful_progress h).kept _ _ pending
        have htoken := (h.waiting.own _ _ hold).1
        exact .passed (htoken ▸ before.mem_reply arrivals) (htoken ▸ hold) (purpose.trans hsame)
          (hsame ▸ passes)

/-! ### What cannot be read -/

/-- Something that is in the queue cannot be read, or what it leads a session to ask cannot be
asked. -/
inductive Garbled (s : Session) : Prop where
  /-- The answer for a node that waits for its calls. -/
  | calls {value : Json} {inquiry : Inquiry} {id : TreeId} {ref : NodeRef} {generation : Nat}
    {direction : CallDirection} {reason : Malformed}
    (arrivals : .reply inquiry.token (.answer value) ∈ s.arrivals)
    (pending : s.pending.get? inquiry.token = some inquiry)
    (purpose : inquiry.purpose = .expand id ref generation direction) (live : s.isLive inquiry)
    (unreadable : callsOf direction value = .error reason)
  /-- The answer with the items that a tree is to be opened for. -/
  | items {value : Json} {inquiry : Inquiry} {uri : Text} {direction : CallDirection}
    {reason : Malformed} (arrivals : .reply inquiry.token (.answer value) ∈ s.arrivals)
    (pending : s.pending.get? inquiry.token = some inquiry)
    (purpose : inquiry.purpose = .openCalls uri direction)
    (unreadable : itemsOf value = .error reason)
  /-- The answer with the symbols of a document. -/
  | outline {value : Json} {inquiry : Inquiry} {uri : Text} {e : Fault}
    (arrivals : .reply inquiry.token (.answer value) ∈ s.arrivals)
    (pending : s.pending.get? inquiry.token = some inquiry)
    (purpose : inquiry.purpose = .openOutline uri) (present : value.isPresent)
    (unreadable : Node.outlineOfJson uri value = .error e)
  /-- The answer to the lookup for a call. -/
  | symbol {l : Token} {value : Json} {inquiry : Inquiry} {j : Nat} {call : Call}
    {reason : Malformed} (arrivals : .lookup l (.answer value) ∈ s.arrivals)
    (lookup : s.lookups.get? l = some (inquiry.token, j))
    (pending : s.pending.get? inquiry.token = some inquiry)
    (isCall : inquiry.calls[j]? = some call)
    (unreadable : LocatedSymbol.find? call.item value = .error reason)
  /-- The answer that a recording has to the lookup for a call of an answer. -/
  | recorded {recording value : Json} {item : CallItem} {reason : Malformed}
    (elicits : s.Elicits (.workspaceSymbols item.name)) (client : s.client = .replay recording)
    (answer : Recording.answer recording (Request.workspaceSymbols item.name).method
      (Request.workspaceSymbols item.name).params = .ok value)
    (unreadable : LocatedSymbol.find? item value = .error reason)
  /-- A recording has no answer that can be read to what is to be asked for. -/
  | baffled {request : Request} (elicits : s.Elicits request) (baffled : s.client.Baffled request)
  /-- The deadline of what is to be asked for cannot be told. -/
  | untimely {request : Request} {reason : Malformed} (elicits : s.Elicits request)
    (late : s.now.add s.settings.timeout = .error reason)

/-- The lookup for a call is what it was, if it was there. -/
theorem Chain.looked (h : s.Sound) (hc : Chain Progress s results t) {l : Token} {j : Nat}
    {call : Call} (hl : t.lookups.get? l = some (inquiry.token, j)) (hlt : l < s.nextToken)
    (hi : t.pending.get? inquiry.token = some inquiry) (hcall : inquiry.calls[j]? = some call) :
    ∃ old, s.lookups.get? l = some (old.token, j) ∧ s.pending.get? old.token = some old ∧
      old.calls[j]? = some call := by
  have hlater := Later.of_moves h (hc.moves (fun _ _ _ hu hp => lawful_progress.moves hu hp) h)
  have hlookup := hlater.get?_lookups hlt hl
  obtain ⟨-, -, old, hold, -, hj⟩ := h.looking.known _ _ _ hlookup
  have htoken := (h.waiting.own _ _ hold).1
  refine ⟨old, htoken ▸ hlookup, htoken ▸ hold, ?_⟩
  obtain ⟨hsame, -⟩ | ⟨hnone, -⟩ := hc.continues h hold hi
  · exact hsame ▸ hcall
  · rw [hnone] at hj
    cases hj

/-- The value of a lookup that a recording answers at once is what the recording has for the call
that the lookup is for. -/
theorem Tracked.recorded (h : Tracked came own t) {l : Token} {j : Nat} {value : Json} {call : Call}
    {r : Sent} (lookup : t.lookups.get? l = some (inquiry.token, j))
    (pending : t.pending.get? inquiry.token = some inquiry) (isCall : inquiry.calls[j]? = some call)
    (mem : r ∈ t.sent) (prompt : .lookup l (.answer value) ∈ t.client.prompt true r.token r.request) :
    r.request = .workspaceSymbols call.item.name ∧ ∃ recording, t.client = .replay recording ∧
      Recording.answer recording r.request.method r.request.params = .ok value := by
  obtain ⟨recording, answer, hclient, hanswer, he⟩ := Client.mem_prompt_lookup prompt
  obtain ⟨rfl, houtcome⟩ := Arrival.lookup.inj he
  obtain rfl := Outcome.answer.inj houtcome
  refine ⟨?_, recording, hclient, hanswer⟩
  cases h.attributed.calls _ inquiry j call pending isCall with
  | skipped none idle => exact absurd lookup (idle _)
  | @waits i l owns searched hl =>
    obtain rfl := h.sound.looking.once _ l _ lookup hl
    obtain ⟨other, hr, htoken, -, hrequest⟩ := searched
    obtain rfl := h.sound.queued.sent_eq (List.mem_of_getElem? hr) mem htoken
    exact hrequest
  | heard owns searched idle => exact absurd lookup (idle _)

/-- **Where a session cannot be drained, something cannot be read**, or not be asked. -/
theorem Tracked.garbled (h : Tracked came own s) (hc : Chain Effect s results t)
    (hs : t.Stumbles u) : s.Garbled := by
  have hprogress : Chain Progress s results t := hc.mono fun _ _ _ he => .effect he
  have hframe := hprogress.frame lawful_progress
  have hsound := hprogress.sound lawful_progress h.sound
  have hin {first : Arrival} {rest : List Arrival} (ha : t.arrivals = first :: rest) :
      first ∈ t.arrivals := ha ▸ List.mem_cons_self
  cases hs with
  | calls arrivals pending purpose live unreadable =>
    obtain ⟨old, ha, hold, hp, hl⟩ := hprogress.unread h.sound (hin arrivals) pending
    exact .calls ha hold (hp ▸ purpose) (hl ▸ live) unreadable
  | items arrivals pending purpose unreadable =>
    obtain ⟨old, ha, hold, hp, -⟩ := hprogress.unread h.sound (hin arrivals) pending
    exact .items ha hold (hp ▸ purpose) unreadable
  | outline arrivals pending purpose present unreadable =>
    obtain ⟨old, ha, hold, hp, -⟩ := hprogress.unread h.sound (hin arrivals) pending
    obtain ⟨e, he⟩ := Node.outlineOfJson_of_entries_error unreadable
    exact .outline ha hold (hp ▸ purpose) present he
  | untimely arrivals pending purpose live read some resolves late =>
    obtain ⟨call, hcall⟩ := List.exists_mem_of_ne_nil _ some
    obtain rfl := (hsound.waiting.own _ _ pending).1
    have helicits : t.Elicits _ := .lookup (hin arrivals) pending purpose live read hcall resolves
    exact .untimely (helicits.since h.sound hprogress) (hframe.now ▸ hframe.settings ▸ late)
  | baffled arrivals pending purpose live read resolves timely baffled =>
    obtain rfl := (hsound.waiting.own _ _ pending).1
    have helicits : t.Elicits _ := .lookup (hin arrivals) pending purpose live read
      (List.mem_append_right _ List.mem_cons_self) resolves
    exact .baffled (helicits.since h.sound hprogress) (hframe.client ▸ baffled)
  | @symbol l value rest inquiry j call reason arrivals lookup pending isCall unreadable =>
    cases hprogress.arises h.sound (hin arrivals) with
    | queued arrivals =>
      obtain ⟨i, request, ⟨p, hp, rfl, -⟩, -⟩ := h.attributed.queued _ _ arrivals
      have hlt := h.sound.queued.issued p (List.mem_of_getElem? hp)
      obtain ⟨old, hlookup, hold, hcall⟩ := hprogress.looked h.sound lookup hlt pending isCall
      exact .symbol arrivals hlookup hold hcall unreadable
    | prompted mem elicits prompt =>
      obtain ⟨own', ⟨-, ht, -⟩, -⟩ := h.carries (hc.mono fun _ _ _ he => .effect he)
      rw [← hframe.client] at prompt
      obtain ⟨hrequest, recording, hclient, hanswer⟩ :=
        ht.recorded lookup pending isCall mem prompt
      rw [hrequest] at elicits hanswer
      exact .recorded elicits (hframe.client ▸ hclient) hanswer unreadable

end Session

end SymbolTrees
