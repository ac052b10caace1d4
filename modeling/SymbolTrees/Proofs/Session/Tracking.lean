import SymbolTrees.Proofs.Session.Attribution
import SymbolTrees.Proofs.Session.Outcome

/-!
# What is reported for calls

The nodes of an answer are those of its calls, one for one and in order. That symbols are looked up
makes a node stand for a symbol instead of its item at most: for the first entry of what its own
lookup was answered that describes the item, if there is one, and whatever the other lookups came to.
-/

namespace SymbolTrees

open SymbolTrees.Server (Outcome Recording.answer Request)

namespace Session

variable {s t u : Session} {k l : Token} {i j : Nat} {inquiry : Inquiry} {call : Call}
  {came later : Nat → Request → Outcome → Prop} {own own' : Owners} {results more : List Resolution}
  {request : Request} {outcome other : Outcome} {events : List Event}

/-! ### Verdicts -/

/-- What call number `j` of a request stands for when its nodes are reported. -/
inductive Verdict (came : Nat → Request → Outcome → Prop) (own : Nat → Option Nat) (s : Session)
    (sent : List Sent) (calls : List Call) (j : Nat) (call : Call) : Option LocatedSymbol → Prop where
  /-- No lookup was sent: no symbols are looked up, or a recording could not be asked. -/
  | skipped (none : own j = none) (reason : s.settings.resolveSymbols = false ∨
      ∃ other ∈ calls, s.client.Baffled (.workspaceSymbols other.item.name)) :
    Verdict came own s sent calls j call .none
  /-- Nothing became of its lookup. -/
  | unheard {i : Nat} {l : Token} (owns : own j = some i)
    (searched : Searched sent i l (.workspaceSymbols call.item.name))
    (silent : ∀ outcome, ¬came i (.workspaceSymbols call.item.name) outcome) :
    Verdict came own s sent calls j call none
  | heard {i : Nat} {l : Token} {outcome : Outcome} (owns : own j = some i)
    (searched : Searched sent i l (.workspaceSymbols call.item.name))
    (comes : came i (.workspaceSymbols call.item.name) outcome) :
    Verdict came own s sent calls j call (LocatedSymbol.told call.item outcome)

/-- A lookup that is under way was sent for the call that it is for. -/
theorem Attributed.owns (ha : Attributed came own s) (h : s.Sound)
    (hl : s.lookups.get? l = some (k, j)) : ∃ i, own k j = some i := by
  obtain ⟨-, -, inquiry, hi, -, hlt⟩ := h.looking.known l k j hl
  cases ha.calls k inquiry j _ hi (List.getElem?_eq_getElem hlt) with
  | skipped none idle => exact absurd hl (idle l)
  | waits owns => exact ⟨_, owns⟩
  | heard owns => exact ⟨_, owns⟩

/-- Where nothing is in the queue for the lookups of a request, there is a verdict on all of its
calls, if one was looked up at all. -/
theorem Attributed.verdicts (ha : Attributed came own s) (hi : s.pending.get? k = some inquiry)
    (hsome : ∃ j i, own k j = some i)
    (hqueue : ∀ l j outcome, s.lookups.get? l = some (k, j) → .lookup l outcome ∉ s.arrivals)
    (j : Nat) (call : Call) (hcall : inquiry.calls[j]? = some call) :
    ∃ symbol, inquiry.found[j]? = some symbol ∧
      Verdict came (own k) s s.sent inquiry.calls j call symbol := by
  cases ha.calls k inquiry j call hi hcall with
  | skipped none idle found reason =>
    refine ⟨_, found, .skipped none (.inr (reason.resolve_left fun hnone => ?_))⟩
    obtain ⟨j', i, ho⟩ := hsome
    rw [hnone j'] at ho
    cases ho
  | waits owns searched lookup found queued =>
    exact ⟨_, found, .unheard owns searched fun outcome hc =>
      hqueue _ _ outcome lookup (queued outcome hc)⟩
  | heard owns searched idle came found => exact ⟨_, found, .heard owns searched came⟩

/-- How the nodes of a report came about: they are those of the calls that the request has brought,
one for one and in order, and for each there is a verdict. -/
inductive Brought (came : Nat → Request → Outcome → Prop) (own : Owners) (s : Session)
    (sent : List Sent) : Resolution → Prop where
  | children {k : Token} {id : TreeId} {ref : NodeRef} {generation : Nat}
    {direction : CallDirection} {item : CallItem} {calls : List Call}
    {found : List (Option LocatedSymbol)}
    (brings : Brings (fun i request value => came i request (.answer value)) sent k direction item
      calls)
    (length : found.length = calls.length)
    (verdicts : ∀ (j : Nat) (call : Call), calls[j]? = some call →
      ∃ symbol, found[j]? = some symbol ∧ Verdict came (own k) s sent calls j call symbol) :
    Brought came own s sent ⟨k, .expand id ref generation direction,
      .children (calls.zipWith (childOf ((s.node ref).depth + 1)) found)⟩
  | bare {r : Resolution} (bare : ∀ nodes, r.result ≠ .children nodes) : Brought came own s sent r

theorem Verdict.transfer {own own' : Nat → Option Nat} {sent sent' : List Sent} {calls : List Call}
    {symbol : Option LocatedSymbol} (hv : Verdict came own s sent calls j call symbol)
    (ho : own' = own) (hsent : sent <+: sent')
    (hg : t.settings = s.settings ∧ t.client = s.client) :
    Verdict came own' t sent' calls j call symbol := by
  subst ho
  cases hv with
  | skipped none reason => exact .skipped none (hg.1 ▸ hg.2 ▸ reason)
  | unheard owns searched silent => exact .unheard owns (searched.extend hsent) silent
  | heard owns searched comes => exact .heard owns (searched.extend hsent) comes

theorem Brought.transfer {sent sent' : List Sent} {r : Resolution}
    (hb : Brought came own s sent r) (ho : own' r.token = own r.token) (hsent : sent <+: sent')
    (hg : t.settings = s.settings ∧ t.client = s.client)
    (hm : ∀ id ref generation direction, r.purpose = .expand id ref generation direction →
      (s.node ref).mark = (t.node ref).mark) : Brought came own' t sent' r := by
  cases hb with
  | children brings length verdicts =>
    rw [Node.depth_of_mark (hm _ _ _ _ rfl)]
    refine .children (brings.extend hsent) length fun j call hcall => ?_
    obtain ⟨symbol, hfound, hv⟩ := verdicts j call hcall
    exact ⟨symbol, hfound, hv.transfer ho hsent hg⟩
  | bare bare => exact .bare bare

/-! ### Draining -/

/-- What is known of a session about what became of its requests. -/
structure Tracked (came : Nat → Request → Outcome → Prop) (own : Owners) (s : Session) : Prop where
  sound : s.Sound
  attributed : Attributed came own s
  traced : Traced (fun i request value => came i request (.answer value)) (fun _ _ _ => True) s
  replays : ∀ recording i request value, s.client = .replay recording →
    Recording.answer recording request.method request.params = .ok value →
      came i request (.answer value)

/-- What was sent is known for good, and for requests that are over nothing more is sent. -/
structure Owners.Agrees (own : Owners) (s : Session) (own' : Owners) : Prop where
  ended : ∀ k < s.nextToken, s.pending.get? k = none → own' k = own k
  kept : ∀ k j i, own k j = some i → own' k j = some i

theorem Owners.Agrees.refl (own : Owners) (s : Session) : own.Agrees s own :=
  ⟨fun _ _ _ => rfl, fun _ _ _ ho => ho⟩

/-- A request that is over stays over. -/
theorem Later.ended (hl : Later s t) (hk : k < s.nextToken) (hn : s.pending.get? k = none) :
    k < t.nextToken ∧ t.pending.get? k = none := by
  refine ⟨Int.lt_of_lt_of_le hk hl.nextToken, ?_⟩
  cases hi : t.pending.get? k with
  | none => rfl
  | some new =>
    obtain ⟨old, hold, -⟩ := hl.pending k new hk hi
    rw [hn] at hold
    cases hold

theorem Owners.Agrees.trans {own'' : Owners} (h : own.Agrees s own') (hl : Later s t)
    (h' : own'.Agrees t own'') : own.Agrees s own'' :=
  ⟨fun k hk hn => (h'.ended k (hl.ended hk hn).1 (hl.ended hk hn).2).trans (h.ended k hk hn),
    fun k j i ho => h'.kept k j i (h.kept k j i ho)⟩

theorem Tracked.traced_moves (h : Tracked came own s) (hm : Moves s t) :
    t.client = s.client ∧
      Traced (fun i request value => came i request (.answer value)) (fun _ _ _ => True) t := by
  obtain ⟨hc, -, ht⟩ := h.traced.moves h.sound ⟨fun _ _ _ _ => trivial, fun _ _ _ _ => trivial⟩
    h.replays hm
  exact ⟨hc, ht⟩

/-- Moves after which all calls are attributed. -/
theorem Tracked.after (h : Tracked came own s) (hm : Moves s t) (ha : Attributed came own' t) :
    Tracked came own' t := by
  obtain ⟨hc, ht⟩ := h.traced_moves hm
  exact ⟨h.sound.moves hm, ha, ht, hc ▸ h.replays⟩

theorem Tracked.preserved (h : Tracked came own s) (hm : Moves s t) (hp : Preserves s t) :
    Tracked came own t :=
  h.after hm (h.attributed.preserved h.sound (h.sound.moves hm) hp)

theorem Tracked.log (h : Tracked came own s) (journal : Journal) :
    Tracked came own { s with journal := journal } :=
  h.preserved (.single (.journal s journal)) ⟨⟨Int.le_refl _, fun _ new hi => .inl ⟨new, _, hi, rfl⟩,
    fun _ _ hl => hl⟩, ⟨rfl, rfl⟩, List.prefix_rfl, fun _ _ hm => hm, fun _ _ hm _ => hm⟩

/-- The calls of a request that somebody waits for are those that it has brought. -/
theorem Tracked.brings (h : Tracked came own s) (hi : s.pending.get? inquiry.token = some inquiry)
    {id : TreeId} {ref : NodeRef} {generation : Nat} {direction : CallDirection}
    (hp : inquiry.purpose = .expand id ref generation direction) (hl : s.isLive inquiry)
    (hc : inquiry.calls ≠ []) : ∃ item,
      Brings (fun i request value => came i request (.answer value)) s.sent inquiry.token direction
        item inquiry.calls := by
  obtain ⟨hm, hw, hd⟩ := h.sound.live hi hp hl
  obtain ⟨-, i, d, item, -, hdirection, -, hb⟩ :=
    h.traced.waiting _ _ _ _ inquiry (hm.occurs h.sound) hw hi
  obtain rfl := Direction.calls.inj (hd.symm.trans hdirection)
  exact ⟨item, hb hc⟩

/-- The nodes of a request for which somebody waits are accounted for. -/
theorem Tracked.brought (h : Tracked came own s) (inquiry : Inquiry)
    (hi : s.pending.get? inquiry.token = some inquiry) {id : TreeId} {ref : NodeRef}
    {generation : Nat} {direction : CallDirection}
    (hp : inquiry.purpose = .expand id ref generation direction) (hl : s.isLive inquiry)
    (hc : inquiry.calls ≠ [])
    (hv : ∀ (j : Nat) (call : Call), inquiry.calls[j]? = some call → ∃ symbol,
      inquiry.found[j]? = some symbol ∧
        Verdict came (own inquiry.token) s s.sent inquiry.calls j call symbol) :
    ∀ r ∈ report inquiry (.children (s.childrenOf inquiry ref)), Brought came own s s.sent r := by
  intro r hr
  obtain rfl := List.mem_singleton.1 hr
  obtain ⟨item, hbrings⟩ := h.brings hi hp hl hc
  rw [hp]
  exact .children hbrings (h.sound.looking.found _ inquiry hi) hv

theorem bare_of_failure {sent : List Sent} (reason : Failure) :
    ∀ r ∈ report inquiry (.failure reason), Brought came own s sent r := by
  intro r hr
  obtain rfl := List.mem_singleton.1 hr
  exact .bare fun nodes he => by cases he

/-- What has happened to a session that is tracked: it is tracked still, and what is reported is
accounted for. -/
structure Carried (came : Nat → Request → Outcome → Prop) (own : Owners) (s : Session)
    (results : List Resolution) (own' : Owners) (t : Session) : Prop where
  agrees : own.Agrees s own'
  tracked : Tracked came own' t
  brought : ∀ r ∈ results, Brought came own' s t.sent r

/-- The calls of an answer are looked up, all or those before one that a recording cannot be asked
for. -/
theorem Tracked.asks (h : Tracked came own s) {value : Json} {rest : List Arrival} {id : TreeId}
    {ref : NodeRef} {generation : Nat} {direction : CallDirection} {before after : List Call}
    {deadline : Number} (arrivals : s.arrivals = .reply inquiry.token (.answer value) :: rest)
    (pending : s.pending.get? inquiry.token = some inquiry)
    (purpose : inquiry.purpose = .expand id ref generation direction) (live : s.isLive inquiry)
    (read : callsOf direction value = .ok (before ++ after)) (some : before ++ after ≠ [])
    (resolves : s.settings.resolveSymbols) (timely : s.now.add s.settings.timeout = .ok deadline)
    (hafter : after = [] ∨
      ∃ other ∈ before ++ after, s.client.Baffled (.workspaceSymbols other.item.name)) :
    ∃ own', own.Agrees s own' ∧ Attributed came own' (({ s.taken rest with
      pending := s.pending.put inquiry.token (inquiry.asking (before ++ after) deadline) } :
        Session).seeking (inquiry.asking (before ++ after) deadline) before 0) := by
  obtain ⟨hown, hidle, hattributed⟩ := h.attributed.answers h.sound
    (inquiry.asking (before ++ after) deadline) arrivals pending fun _ _ => found_answered inquiry
  have hmoves := h.sound.moves_asking arrivals pending purpose live read some timely
  have hseeks := hattributed.seeks (inquiry.asking (before ++ after) deadline)
    (h.sound.moves hmoves) (Table.get?_put_self ..) rfl h.replays hidle
    (fun _ _ => found_answered inquiry) resolves hafter
  refine ⟨_, ⟨fun k _ hn => funext fun j => ?_, fun k j i ho => ?_⟩, hseeks⟩
  · refine Owners.given_of_ne _ _ _ _ ?_
    rintro rfl
    cases pending.symm.trans hn
  · refine (Owners.given_of_ne _ _ _ _ ?_).trans ho
    rintro rfl
    cases (hown j).symm.trans ho

/-- Where nothing is looked up, the nodes for the calls of an answer are accounted for. -/
theorem Tracked.adopts (h : Tracked came own s) {value : Json} {rest : List Arrival} {id : TreeId}
    {ref : NodeRef} {generation : Nat} {direction : CallDirection} {calls : List Call}
    (arrivals : s.arrivals = .reply inquiry.token (.answer value) :: rest)
    (pending : s.pending.get? inquiry.token = some inquiry)
    (purpose : inquiry.purpose = .expand id ref generation direction) (live : s.isLive inquiry)
    (read : callsOf direction value = .ok calls) (some : calls ≠ [])
    (plain : s.settings.resolveSymbols = false) :
    ∀ r ∈ report inquiry (.children (s.childrenOf (inquiry.answered calls) ref)),
      Brought came own s s.sent r := by
  have hanswer : Move s (s.answering rest inquiry calls) :=
    .answer arrivals pending purpose live read some
  obtain ⟨hown, -, hattributed⟩ := h.attributed.answers h.sound (inquiry.answered calls)
    arrivals pending fun _ _ => found_answered inquiry
  have hbrought := (h.after (.single hanswer) hattributed).brought (inquiry.answered calls)
    (Table.get?_put_self ..) purpose live some fun j call hcall =>
      ⟨none, found_answered inquiry hcall, .skipped (hown j) (.inl plain)⟩
  exact fun r hr => (hbrought r hr).transfer rfl List.prefix_rfl ⟨rfl, rfl⟩ fun _ _ _ _ _ => rfl

/-- When the last lookup of a request is in, the nodes for its calls are accounted for. -/
theorem Tracked.finishes (h : Tracked came own s) {token : Token} {outcome : Outcome}
    {rest : List Arrival} {index : Nat} {found : List (Option LocatedSymbol)} {id : TreeId}
    {ref : NodeRef} {generation : Nat} {direction : CallDirection}
    (arrivals : s.arrivals = .lookup token outcome :: rest)
    (lookup : s.lookups.get? token = some (inquiry.token, index))
    (pending : s.pending.get? inquiry.token = some inquiry)
    (tells : Tells inquiry index outcome found) (last : (inquiry.told token found).lookups = [])
    (purpose : inquiry.purpose = .expand id ref generation direction) (live : s.isLive inquiry) :
    ∀ r ∈ report inquiry (.children (s.childrenOf (inquiry.told token found) ref)),
      Brought came own s s.sent r := by
  have hheard := tells.get?
  have hfind : Move s (s.matched rest token inquiry found) :=
    .find arrivals lookup pending tells.finds
  have hmatched := h.after (.single hfind) (h.attributed.hears h.sound arrivals lookup pending
    hheard.1 hheard.2)
  obtain ⟨i, ho⟩ := h.attributed.owns h.sound lookup
  have hsome := h.sound.calls_of_lookup lookup pending
  have hbrought := hmatched.brought (inquiry.told token found) (Table.get?_put_self ..) purpose
    live hsome (hmatched.attributed.verdicts (Table.get?_put_self ..) ⟨index, i, ho⟩
      fun l j outcome hl => ?_)
  · exact fun r hr => (hbrought r hr).transfer rfl List.prefix_rfl ⟨rfl, rfl⟩ fun _ _ _ _ _ => rfl
  · have hm := (hmatched.sound.mem_lookups hl (Table.get?_put_self ..)).1
    change l ∈ (inquiry.told token found).lookups at hm
    rw [last] at hm
    cases hm

/-- The oldest arrival has its effect. -/
theorem Tracked.effect (h : Tracked came own s) (he : Effect s results t) :
    ∃ own', Carried came own s results own' t := by
  have hm := he.moves h.sound
  have spared {results : List Resolution} (hp : Preserves s t) (hsent : t.sent = s.sent)
      (hr : ∀ r ∈ results, Brought came own s s.sent r) : ∃ own', Carried came own s results own' t :=
    ⟨own, .refl own s, h.preserved hm hp, hsent ▸ hr⟩
  have reply {k : Token} {outcome : Outcome} {rest : List Arrival}
      (ha : s.arrivals = .reply k outcome :: rest) : Preserves s (s.taken rest) :=
    preserves_taken ha fun _ _ he => by cases he
  cases he with
  | @ignore arrival rest arrivals unheeded =>
    refine spared (preserves_taken arrivals ?_) rfl (by simp)
    rintro l outcome rfl
    simpa [Heeds] using unheeded
  | stale arrivals pending dead =>
    exact spared ((reply arrivals).trans preserves_dropped) rfl (by simp)
  | refuse arrivals pending live refuses =>
    refine spared ((reply arrivals).trans preserves_failed) ?_ (bare_of_failure _)
    unfold failed
    split <;> rfl
  | pass arrivals pending passes =>
    refine spared ((reply arrivals).trans preserves_dropped) rfl fun r hr => .bare fun nodes => ?_
    rw [List.mem_singleton.1 hr]
    exact passes.ne_children nodes
  | adopt arrivals pending purpose live read some plain =>
    obtain rfl := (h.sound.waiting.own _ _ pending).1
    exact spared ((reply arrivals).trans (preserves_grafted _)) rfl
      (h.adopts arrivals pending purpose live read some plain)
  | @seek token value rest inquiry id ref generation direction calls deadline arrivals pending purpose
      live read some resolves timely =>
    obtain rfl := (h.sound.waiting.own _ _ pending).1
    rw [← List.append_nil calls] at read some
    obtain ⟨own', hagrees, hattributed⟩ := h.asks arrivals pending purpose live read some resolves
      timely (.inl rfl)
    rw [List.append_nil] at hattributed
    exact ⟨own', hagrees, h.after hm hattributed, by simp⟩
  | find arrivals lookup pending tells more =>
    have hget := tells.get?
    exact ⟨own, .refl own s, h.after hm (h.attributed.hears h.sound arrivals lookup pending hget.1
      hget.2), by simp⟩
  | finish arrivals lookup pending tells last purpose live =>
    exact spared ((preserves_matched_dropped arrivals).trees _) rfl
      (h.finishes arrivals lookup pending tells last purpose live)
  | lapse arrivals lookup pending tells last dead =>
    exact spared (preserves_matched_dropped arrivals) rfl (by simp)

/-- Once the queue is empty, a request ends whose time is up. -/
theorem Tracked.expiry (h : Tracked came own s) (hn : s.arrivals = []) (he : Expiry s results t) :
    Carried came own s results own t := by
  refine ⟨.refl own s, h.preserved (he.moves h.sound) he.preserves, ?_⟩
  cases he with
  | @adopt inquiry id ref generation direction pending late looking purpose live =>
    obtain ⟨l, hl⟩ := List.exists_mem_of_ne_nil _ looking
    obtain ⟨index, hindex⟩ := h.sound.looking.listed _ inquiry pending l hl
    obtain ⟨i, ho⟩ := h.attributed.owns h.sound hindex
    refine h.brought inquiry pending purpose live (h.sound.calls_of_lookups pending looking)
      (h.attributed.verdicts pending ⟨index, i, ho⟩ fun _ _ _ _ => ?_)
    rw [hn]
    exact List.not_mem_nil
  | lapse => simp
  | timeOut => exact bare_of_failure _

/-- Steps from sessions of which something holds that every step keeps. -/
theorem Chain.induct {R R' : Session → List Resolution → Session → Prop} {P : Session → Prop}
    (hc : Chain R s results t) (hp : P s)
    (log : ∀ u journal, P u → P { u with journal := journal })
    (step : ∀ u v more, P u → R u more v → R' u more v ∧ P v) : Chain R' s results t ∧ P t := by
  induction hc with
  | refl => exact ⟨.refl, hp⟩
  | log _ same ih => exact ⟨ih.1.log same, log _ _ ih.2⟩
  | tail _ next ih =>
    obtain ⟨hnext, hp⟩ := step _ _ _ ih.2 next
    exact ⟨ih.1.tail hnext, hp⟩

theorem Moves.sent_grows (hm : Moves s t) : s.sent <+: t.sent := by
  induction hm with
  | refl => exact List.prefix_rfl
  | tail _ hmove ih => exact ih.trans hmove.sent_grows

/-- Only what somebody waits for is reported. -/
theorem Progress.isLive (h : s.Sound) (hp : Progress s results t) {r : Resolution}
    (hr : r ∈ results) : ∃ inquiry, s.pending.get? r.token = some inquiry ∧
      r.purpose = inquiry.purpose ∧ s.isLive inquiry := by
  have single {token : Token} {inquiry : Inquiry} {result : Result}
      (hi : s.pending.get? token = some inquiry) (hl : s.isLive inquiry)
      (hr : r ∈ report inquiry result) : ∃ inquiry, s.pending.get? r.token = some inquiry ∧
        r.purpose = inquiry.purpose ∧ s.isLive inquiry := by
    obtain rfl := List.mem_singleton.1 hr
    obtain rfl := (h.waiting.own _ _ hi).1
    exact ⟨inquiry, hi, rfl, hl⟩
  cases hp with
  | effect effect =>
    cases effect with
    | refuse arrivals pending live => exact single pending live hr
    | pass arrivals pending passes =>
      obtain ⟨request, hopens⟩ := passes.opens
      refine single pending ?_ hr
      unfold Session.isLive
      split
      · rename_i hp
        exact absurd hp (hopens.ne_expand _ _ _ _)
      · rfl
    | adopt arrivals pending purpose live => exact single pending live hr
    | finish arrivals lookup pending tells last purpose live => exact single pending live hr
    | _ => cases hr
  | expiry expiry =>
    cases expiry with
    | adopt pending late looking purpose live => exact single pending live hr
    | lapse => cases hr
    | timeOut pending late idle live => exact single pending live hr

/-- A step of a session that is drained: the oldest arrival has its effect, or nothing is in the
queue and the time of a request is up. -/
inductive Applies (s : Session) (results : List Resolution) (t : Session) : Prop where
  | effect (effect : Effect s results t)
  | expiry (expiry : Expiry s results t) (queue : s.arrivals = [])

theorem Applies.progress (ha : Applies s results t) : Progress s results t := by
  cases ha with
  | effect effect => exact .effect effect
  | expiry expiry => exact .expiry expiry

/-- Time is up only once the queue is empty. -/
theorem Drains.applies (hd : Drains s results t) : Chain Applies s results t := by
  obtain ⟨first, second, u, rfl, hfirst, hnone, hsecond, -⟩ := hd.split
  refine (hfirst.mono fun _ _ _ he => .effect he).trans
    (hsecond.induct (P := fun u => u.arrivals = []) hnone (fun _ _ hu => hu)
      fun u v more hu he => ?_).1
  exact ⟨.expiry he hu, he.arrivals.trans hu⟩

theorem Tracked.applies (h : Tracked came own s) (ha : Applies s results t) :
    ∃ own', Carried came own s results own' t := by
  cases ha with
  | effect effect => exact h.effect effect
  | expiry expiry queue => exact ⟨own, h.expiry queue expiry⟩

/-- Steps of a session that is drained, and `P` is what each of them keeps. -/
theorem Tracked.chain {P : Owners → List Resolution → Session → Prop}
    (hlog : ∀ own results u journal, P own results u → journal.notes = u.journal.notes →
      P own results { u with journal := journal })
    (hP : ∀ own own' results more u v, Tracked came own u → P own results u → Applies u more v →
      own.Agrees u own' → P own' (results ++ more) v)
    (h : Tracked came own s) (hp : P own [] s) (hc : Chain Applies s results t) :
    ∃ own', Carried came own s results own' t ∧ P own' results t := by
  induction hc with
  | refl => exact ⟨own, ⟨.refl own s, h, by simp⟩, hp⟩
  | log before same ih =>
    obtain ⟨own', ⟨hagrees, htracked, hbrought⟩, hp⟩ := ih
    exact ⟨own', ⟨hagrees, htracked.log _, hbrought⟩, hlog _ _ _ _ hp same⟩
  | @tail results more t u before next ih =>
    obtain ⟨own', ⟨hagrees, htracked, hbrought⟩, hp⟩ := ih
    obtain ⟨own'', hagrees', htracked', hbrought'⟩ := htracked.applies next
    have hbefore := before.mono fun _ _ _ ha => ha.progress
    have hlater := Later.of_moves h.sound
      (hbefore.moves (fun _ _ _ hu hr => lawful_progress.moves hu hr) h.sound)
    have haccounts := hbefore.accounts lawful_progress h.sound
    have hframe := hbefore.frame lawful_progress
    have hgrows := (lawful_progress.moves htracked.sound next.progress).sent_grows
    refine ⟨own'', ⟨hagrees.trans hlater hagrees', htracked', fun r hr => ?_⟩,
      hP _ _ _ _ _ _ htracked hp next hagrees'⟩
    rcases List.mem_append.1 hr with hr | hr
    · obtain ⟨old, hold, -, hover⟩ := haccounts.known r hr
      have hlt := (h.sound.waiting.own _ old hold).2
      refine (hbrought r hr).transfer ?_ hgrows ⟨rfl, rfl⟩ fun _ _ _ _ _ => rfl
      exact hagrees'.ended _ (Int.lt_of_lt_of_le hlt hlater.nextToken) hover
    · refine (hbrought' r hr).transfer rfl List.prefix_rfl
        ⟨hframe.settings.symm, hframe.client.symm⟩ fun id ref generation direction hpurpose => ?_
      obtain ⟨new, hnew, hsame, hlive⟩ := next.progress.isLive htracked.sound hr
      obtain ⟨old, hold, hkept, hwas⟩ := haccounts.kept _ new hnew
      have hmember := (h.sound.live hold (hkept.symm.trans (hsame.symm.trans hpurpose))
        (hwas.trans hlive)).1
      exact (hbefore.member lawful_progress h.sound hmember).2

/-- Where the oldest arrival cannot be dealt with, the trees stay as they are. -/
theorem Stumbles.registry (hs : s.Stumbles t) : t.registry = s.registry := by
  cases hs with
  | baffled => exact registry_seeking ..
  | _ => rfl

theorem Stumbles.sent_grows (hs : s.Stumbles t) : s.sent <+: t.sent := by
  cases hs with
  | baffled =>
    rw [sent_seeking]
    exact List.prefix_append ..
  | _ => exact List.prefix_rfl

/-- Where the oldest arrival cannot be dealt with, the calls stay attributed. -/
theorem Tracked.stumbles (h : Tracked came own s) (hs : s.Stumbles t) :
    ∃ own', own.Agrees s own' ∧ Attributed came own' t := by
  have reply {k : Token} {outcome : Outcome} {rest : List Arrival}
      (ha : s.arrivals = .reply k outcome :: rest) : Preserves s (s.taken rest) :=
    preserves_taken ha fun _ _ he => by cases he
  have spared (hm : Moves s t) (hp : Preserves s t) :
      ∃ own', own.Agrees s own' ∧ Attributed came own' t :=
    ⟨own, .refl own s, (h.preserved hm hp).attributed⟩
  cases hs with
  | calls arrivals => exact spared (.single (.ignore arrivals)) (reply arrivals)
  | items arrivals => exact spared (.single (.ignore arrivals)) (reply arrivals)
  | @outline token value rest inquiry uri reason arrivals pending purpose =>
    obtain rfl := (h.sound.waiting.own _ _ pending).1
    have hdrop : Move (s.taken rest) ((s.taken rest).dropped inquiry) :=
      .drop pending (.inr (purpose ▸ ⟨_, .outline uri⟩))
    exact spared (.tail (.single (.ignore arrivals)) hdrop) ((reply arrivals).trans preserves_dropped)
  | untimely arrivals pending purpose live read some =>
    obtain rfl := (h.sound.waiting.own _ _ pending).1
    exact ⟨own, .refl own s, (h.attributed.answers h.sound _ arrivals pending
      fun _ _ => found_answered _).2.2⟩
  | @baffled token value rest inquiry id ref generation direction before after call deadline arrivals
      pending purpose live read resolves timely baffled =>
    obtain rfl := (h.sound.waiting.own _ _ pending).1
    have hsplit : before ++ call :: after = (before ++ [call]) ++ after := by simp
    rw [hsplit] at read ⊢
    exact h.asks arrivals pending purpose live read (by simp) resolves timely
      (.inr ⟨call, by simp, baffled⟩)
  | symbol arrivals lookup pending isCall unreadable =>
    refine ⟨own, .refl own s, h.attributed.hears h.sound arrivals lookup pending ?_ fun _ _ => rfl⟩
    intro call hcall hfound
    obtain rfl := Option.some.inj (isCall.symm.trans hcall)
    rw [hfound, LocatedSymbol.told, unreadable]

/-! ### Events -/

theorem came_eq {event : Event}
    (he : ∀ i outcome, event = .settle i outcome →
      event.act.answer (s.steps events) ≠ .ok (.done true)) :
    Came s (events ++ [event]) = Came s events := by
  funext i request outcome
  refine propext ⟨fun h => ?_, fun h => h.append [event]⟩
  exact (came_concat h).resolve_right fun hn => he i outcome hn.1 hn.2

/-- An outcome arrives. -/
theorem Tracked.arrived (h : Tracked came own s) {r : Sent} (hr : s.sent[i]? = some r)
    (ho : r.isOpen) (hlater : ∀ j request other, later j request other →
      came j request other ∨ j = i ∧ other = outcome)
    (hmono : ∀ j request other, came j request other → later j request other)
    (hnew : later i r.request outcome) : Tracked later own (s.arrived i r outcome) := by
  have ha := h.attributed
  have hsent : (s.arrived i r outcome).sent = s.sent.modify i Sent.settled := rfl
  have hlength : (s.arrived i r outcome).sent.length = s.sent.length := List.length_modify ..
  refine ⟨h.sound.arrived outcome hr ho, ⟨ha.apart, ?_, ha.within, ha.plain, ?_, ?_, ?_⟩, ?_, ?_⟩
  · intro k j i' howns
    exact hlength ▸ ha.issued k j i' howns
  · intro j request other hle hl
    rcases hlater j request other hl with hc | ⟨rfl, rfl⟩
    · exact ha.ahead j request other (hlength ▸ hle) hc
    · exact absurd (List.getElem?_eq_some_iff.1 hr).1 (Nat.not_lt.2 (hlength ▸ hle))
  · intro l other hm
    rcases List.mem_append.1 hm with hm | hm
    · obtain ⟨j, request, hs, hc⟩ := ha.queued l other hm
      exact ⟨j, request, hs.settle i, hmono _ _ _ hc⟩
    · have he := List.mem_singleton.1 hm
      unfold Arrival.of at he
      split at he
      · rename_i hlookup
        obtain ⟨rfl, rfl⟩ := Arrival.lookup.inj he
        exact ⟨i, r.request, Searched.settle ⟨r, hr, rfl, hlookup, rfl⟩ i, hnew⟩
      · cases he
  · intro k inquiry j call hi hcall
    cases ha.calls k inquiry j call hi hcall with
    | skipped none idle found reason => exact .skipped none idle found reason
    | @waits i' l owns searched lookup found queued =>
      refine .waits owns (searched.settle i) lookup found fun other hl => ?_
      rcases hlater _ _ other hl with hc | ⟨rfl, rfl⟩
      · exact List.mem_append_left _ (queued other hc)
      · obtain ⟨r', hr', rfl, hlookup, -⟩ := searched
        obtain rfl := Option.some.inj (hr.symm.trans hr')
        refine List.mem_append_right _ (List.mem_singleton.2 ?_)
        rw [Arrival.of, if_pos hlookup]
    | heard owns searched idle came found =>
      exact .heard owns (searched.settle i) idle (hmono _ _ _ came) found
  · refine (h.traced.mono fun j request value hc => hmono _ _ _ hc).arrived hr ?_
    rintro value rfl
    exact hnew
  · exact fun recording j request value hc hv => hmono _ _ _ (h.replays recording j request value hc hv)

/-- A session is tracked through an event that is no pump. -/
theorem Tracked.step (h : Tracked (Came s events) own (s.steps events)) (event : Event)
    (hp : event ≠ .pump) : Tracked (Came s (events ++ [event])) own ((s.steps events).step event) := by
  have owned (ho : event.isOwn) (he : ∀ i outcome, event ≠ .settle i outcome) :
      Tracked (Came s (events ++ [event])) own ((s.steps events).step event) := by
    rw [came_eq fun i outcome hs => absurd hs (he i outcome)]
    obtain ⟨posts, hmakes⟩ := makes_step h.sound ho hp
    have hmoves := h.sound.moves_step ho
    exact h.preserved hmoves (hmakes.preserves hmoves)
  cases event with
  | tick now =>
    rw [came_eq fun i outcome hs => by cases hs]
    have hsame : Preserves (s.steps events) ((s.steps events).ticked now) :=
      ⟨⟨Int.le_refl _, fun _ new hi => .inl ⟨new, _, hi, rfl⟩, fun _ _ hl => hl⟩, ⟨rfl, rfl⟩,
        List.prefix_rfl, fun _ _ hm => hm, fun _ _ hm _ => hm⟩
    have ht := h.sound.ticked now
    exact ⟨ht, h.attributed.preserved h.sound ht hsame, h.traced.ticked now, h.replays⟩
  | settle i outcome =>
    by_cases hr : ∃ r, (s.steps events).sent[i]? = some r ∧ r.isOpen
    · obtain ⟨r, hr, ho⟩ := hr
      have hstep : (s.steps events).step (.settle i outcome) =
          (s.steps events).arrived i r outcome := by
        rw [Session.step, Action.after, settle_of_isOpen hr ho]
      rw [hstep]
      refine h.arrived hr ho (fun j request other hl => ?_) (fun j request other hc => hc.append _)
        (.inl ⟨events, [], rfl, answer_settle.2 ⟨r, hr, ho⟩⟩)
      refine (came_concat hl).imp_right fun hn => ?_
      obtain ⟨rfl, rfl⟩ := Event.settle.inj hn.1
      exact ⟨rfl, rfl⟩
    · rw [came_eq fun j other hs ha => hr (by
        obtain ⟨rfl, rfl⟩ := Event.settle.inj hs
        exact answer_settle.1 ha)]
      have hstep : (s.steps events).step (.settle i outcome) = s.steps events := by
        rw [Session.step, Action.after,
          settle_of_not_isOpen fun r hi ho => hr ⟨r, hi, ho⟩]
      rw [hstep]
      exact h
  | pump => exact absurd rfl hp
  | _ => exact owned rfl (by simp)

end Session

end SymbolTrees
