import SymbolTrees.Proofs.Session.Operations

/-!
# What becomes of what arrives

Every arrival has one effect, and so has it that the time of a request is up: both are stated here
in full, with what is reported. All that the rest of the theory says about draining is read off
these two relations.
-/

namespace SymbolTrees

open SymbolTrees.Server (Outcome)

/-- The request once its calls are known, without a symbol for any of them. -/
def Inquiry.answered (inquiry : Inquiry) (calls : List Call) : Inquiry :=
  { inquiry with calls := calls, found := calls.map fun _ => none }

/-- The request when its symbols are about to be looked up, until a new deadline. -/
def Inquiry.asking (inquiry : Inquiry) (calls : List Call) (deadline : Number) : Inquiry :=
  { inquiry.answered calls with deadline := deadline }

/-- The request once the lookup `token` is over, with what is found by then. -/
def Inquiry.told (inquiry : Inquiry) (token : Token) (found : List (Option LocatedSymbol)) :
    Inquiry :=
  { inquiry with lookups := inquiry.lookups.filter (· ≠ token), found := found }

namespace Session

variable {s t u : Session} {inquiry : Inquiry}

/-! ### Steps with reports -/

/-- Steps one after the other, with all that they report. Writing to the log is no step. -/
inductive Chain (R : Session → List Resolution → Session → Prop) (s : Session) :
    List Resolution → Session → Prop where
  | refl : Chain R s [] s
  | log {results : List Resolution} {t : Session} {journal : Journal}
    (before : Chain R s results t) (same : journal.notes = t.journal.notes) :
    Chain R s results { t with journal := journal }
  | tail {results more : List Resolution} {t u : Session} (before : Chain R s results t)
    (next : R t more u) : Chain R s (results ++ more) u

namespace Chain

variable {R : Session → List Resolution → Session → Prop} {results more : List Resolution}

theorem single (h : R s results t) : Chain R s results t := .tail .refl h

theorem trans (h : Chain R s results t) (h' : Chain R t more u) :
    Chain R s (results ++ more) u := by
  induction h' with
  | refl =>
    rw [List.append_nil]
    exact h
  | log _ same ih => exact ih.log same
  | tail _ next ih =>
    rw [← List.append_assoc]
    exact ih.tail next

theorem mono {R' : Session → List Resolution → Session → Prop} (h : Chain R s results t)
    (hR : ∀ s results t, R s results t → R' s results t) : Chain R' s results t := by
  induction h with
  | refl => exact .refl
  | log _ same ih => exact ih.log same
  | tail _ next ih => exact ih.tail (hR _ _ _ next)

/-- What every step keeps is kept. -/
theorem keeps {P : Session → Prop} (h : Chain R s results t) (hp : P s)
    (log : ∀ u journal, P u → journal.notes = u.journal.notes → P { u with journal := journal })
    (step : ∀ u v more, P u → R u more v → P v) : P t := by
  induction h with
  | refl => exact hp
  | log _ same ih => exact log _ _ ih same
  | tail _ next ih => exact step _ _ _ ih next

end Chain

/-! ### What is said of outcomes -/

/-- Somebody asked for what has arrived. -/
def Heeds (s : Session) : Arrival → Prop
  | .reply token _ => (s.pending.get? token).isSome
  | .lookup token _ => (s.lookups.get? token).isSome

/-- The outcome ends a request without a result, for the reason that is given. -/
inductive Refuses (s : Session) : Purpose → Outcome → Failure → Prop where
  | callsFailed {outcome : Outcome} (id : TreeId) (ref : NodeRef) (generation : Nat)
    (direction : CallDirection) (unanswered : ∀ value, outcome ≠ .answer value) :
    Refuses s (.expand id ref generation direction) outcome
      (.callsFailed direction (s.node ref).name (outcome.error?.getD []))
  | noCalls {value : Json} (id : TreeId) (ref : NodeRef) (generation : Nat)
    {direction : CallDirection} (read : callsOf direction value = .ok []) :
    Refuses s (.expand id ref generation direction) (.answer value)
      (.noCalls direction (s.node ref).name)
  | itemsFailed {outcome : Outcome} (uri : Text) (direction : CallDirection)
    (unanswered : ∀ value, outcome ≠ .answer value) :
    Refuses s (.openCalls uri direction) outcome (.itemsFailed (outcome.error?.getD []))
  | noItem {value : Json} (uri : Text) (direction : CallDirection) (read : itemsOf value = .ok []) :
    Refuses s (.openCalls uri direction) (.answer value) .noItem
  | outlineFailed {outcome : Outcome} (uri : Text) (unanswered : ∀ value, outcome ≠ .answer value) :
    Refuses s (.openOutline uri) outcome (.outlineFailed (outcome.error?.getD []))
  | noSymbols {value : Json} (uri : Text) (absent : value.isPresent = false) :
    Refuses s (.openOutline uri) (.answer value) (.noSymbols uri)

/-- The result that an answer has for a request that is made for no node. -/
inductive Passes : Purpose → Json → Result → Prop where
  | items {value : Json} {items : List CallItem} (uri : Text) (direction : CallDirection)
    (read : itemsOf value = .ok items) (some : items ≠ []) :
    Passes (.openCalls uri direction) value (.items items)
  | symbols {value : Json} {symbols : List Json} (uri : Text) (present : value.isPresent)
    (read : value.entries = .ok symbols) : Passes (.openOutline uri) value (.symbols symbols)

theorem Passes.opens {purpose : Purpose} {value : Json} {result : Result}
    (h : Passes purpose value result) : ∃ request, Opens purpose request := by
  cases h with
  | items uri direction => exact ⟨_, .calls uri 0 0 direction⟩
  | symbols uri => exact ⟨_, .outline uri⟩

/-- The symbols of the calls of a request once the outcome of a lookup is in. -/
inductive Tells (inquiry : Inquiry) (index : Nat) :
    Outcome → List (Option LocatedSymbol) → Prop where
  | nothing {outcome : Outcome} (unanswered : ∀ value, outcome ≠ .answer value) :
    Tells inquiry index outcome inquiry.found
  | symbol {value : Json} {call : Call} {symbol : Option LocatedSymbol}
    (isCall : inquiry.calls[index]? = some call)
    (read : LocatedSymbol.find? call.item value = .ok symbol) :
    Tells inquiry index (.answer value) (inquiry.found.set index symbol)

theorem Tells.finds {index : Nat} {outcome : Outcome} {found : List (Option LocatedSymbol)}
    (h : Tells inquiry index outcome found) : Finds inquiry index outcome found := by
  cases h with
  | nothing => exact .same outcome
  | symbol isCall read => exact .symbol isCall read

/-! ### Effects -/

/-- The oldest arrival is taken from the queue. -/
abbrev taken (s : Session) (rest : List Arrival) : Session := { s with arrivals := rest }

/-- The oldest arrival is the answer of a request. -/
abbrev answering (s : Session) (rest : List Arrival) (inquiry : Inquiry) (calls : List Call) :
    Session :=
  { s with arrivals := rest, pending := s.pending.put inquiry.token (inquiry.answered calls) }

/-- The symbols of calls are asked for, one after the other from number `index` on. -/
def seeking (s : Session) (inquiry : Inquiry) : List Call → Nat → Session
  | [], _ => s
  | call :: rest, index =>
    seeking ((s.looking inquiry.token inquiry index).posted s.nextToken true
      (.workspaceSymbols call.item.name))
      { inquiry with lookups := inquiry.lookups ++ [s.nextToken] } rest (index + 1)

/-- The calls of a request are known, and their symbols are looked up until a new deadline. -/
def rearmed (s : Session) (inquiry : Inquiry) (calls : List Call) (deadline : Number) : Session :=
  seeking { s with pending := s.pending.put inquiry.token (inquiry.asking calls deadline) }
    (inquiry.asking calls deadline) calls 0

/-- What the oldest arrival leads to. -/
inductive Effect (s : Session) : List Resolution → Session → Prop where
  /-- Nobody asked for it. -/
  | ignore {arrival : Arrival} {rest : List Arrival} (arrivals : s.arrivals = arrival :: rest)
    (unheeded : ¬s.Heeds arrival) : Effect s [] (s.taken rest)
  /-- An outcome for a node that does not wait for it any more. -/
  | stale {token : Token} {outcome : Outcome} {rest : List Arrival} {inquiry : Inquiry}
    (arrivals : s.arrivals = .reply token outcome :: rest)
    (pending : s.pending.get? token = some inquiry) (dead : s.isLive inquiry = false) :
    Effect s [] ((s.taken rest).dropped inquiry)
  /-- An outcome that brings nothing. -/
  | refuse {token : Token} {outcome : Outcome} {rest : List Arrival} {inquiry : Inquiry}
    {reason : Failure} (arrivals : s.arrivals = .reply token outcome :: rest)
    (pending : s.pending.get? token = some inquiry) (live : s.isLive inquiry)
    (refuses : Refuses s inquiry.purpose outcome reason) :
    Effect s (report inquiry (.failure reason)) ((s.taken rest).failed inquiry)
  /-- An answer for no node is passed on. -/
  | pass {token : Token} {value : Json} {rest : List Arrival} {inquiry : Inquiry} {result : Result}
    (arrivals : s.arrivals = .reply token (.answer value) :: rest)
    (pending : s.pending.get? token = some inquiry)
    (passes : Passes inquiry.purpose value result) :
    Effect s (report inquiry result) ((s.taken rest).dropped inquiry)
  /-- The calls of an answer become nodes at once. -/
  | adopt {token : Token} {value : Json} {rest : List Arrival} {inquiry : Inquiry} {id : TreeId}
    {ref : NodeRef} {generation : Nat} {direction : CallDirection} {calls : List Call}
    (arrivals : s.arrivals = .reply token (.answer value) :: rest)
    (pending : s.pending.get? token = some inquiry)
    (purpose : inquiry.purpose = .expand id ref generation direction) (live : s.isLive inquiry)
    (read : callsOf direction value = .ok calls) (some : calls ≠ [])
    (plain : s.settings.resolveSymbols = false) :
    Effect s (report inquiry (.children (s.childrenOf (inquiry.answered calls) ref)))
      ((s.taken rest).grafted (inquiry.answered calls) ref)
  /-- The symbols of the calls of an answer are looked up. -/
  | seek {token : Token} {value : Json} {rest : List Arrival} {inquiry : Inquiry} {id : TreeId}
    {ref : NodeRef} {generation : Nat} {direction : CallDirection} {calls : List Call}
    {deadline : Number} (arrivals : s.arrivals = .reply token (.answer value) :: rest)
    (pending : s.pending.get? token = some inquiry)
    (purpose : inquiry.purpose = .expand id ref generation direction) (live : s.isLive inquiry)
    (read : callsOf direction value = .ok calls) (some : calls ≠ [])
    (resolves : s.settings.resolveSymbols) (timely : s.now.add s.settings.timeout = .ok deadline) :
    Effect s [] ((s.taken rest).rearmed inquiry calls deadline)
  /-- The outcome of a lookup, while others are under way. -/
  | find {token : Token} {outcome : Outcome} {rest : List Arrival} {inquiry : Inquiry}
    {index : Nat} {found : List (Option LocatedSymbol)}
    (arrivals : s.arrivals = .lookup token outcome :: rest)
    (lookup : s.lookups.get? token = some (inquiry.token, index))
    (pending : s.pending.get? inquiry.token = some inquiry)
    (tells : Tells inquiry index outcome found)
    (more : (inquiry.told token found).lookups ≠ []) :
    Effect s [] (s.matched rest token inquiry found)
  /-- The outcome of the last lookup: the calls become nodes. -/
  | finish {token : Token} {outcome : Outcome} {rest : List Arrival} {inquiry : Inquiry}
    {index : Nat} {found : List (Option LocatedSymbol)} {id : TreeId} {ref : NodeRef}
    {generation : Nat} {direction : CallDirection}
    (arrivals : s.arrivals = .lookup token outcome :: rest)
    (lookup : s.lookups.get? token = some (inquiry.token, index))
    (pending : s.pending.get? inquiry.token = some inquiry)
    (tells : Tells inquiry index outcome found)
    (last : (inquiry.told token found).lookups = [])
    (purpose : inquiry.purpose = .expand id ref generation direction) (live : s.isLive inquiry) :
    Effect s (report inquiry (.children (s.childrenOf (inquiry.told token found) ref)))
      ((s.matched rest token inquiry found).grafted (inquiry.told token found) ref)
  /-- The outcome of the last lookup for a node that does not wait any more. -/
  | lapse {token : Token} {outcome : Outcome} {rest : List Arrival} {inquiry : Inquiry}
    {index : Nat} {found : List (Option LocatedSymbol)}
    (arrivals : s.arrivals = .lookup token outcome :: rest)
    (lookup : s.lookups.get? token = some (inquiry.token, index))
    (pending : s.pending.get? inquiry.token = some inquiry)
    (tells : Tells inquiry index outcome found)
    (last : (inquiry.told token found).lookups = []) (dead : s.isLive inquiry = false) :
    Effect s [] ((s.matched rest token inquiry found).dropped (inquiry.told token found))

/-- What it leads to that the time of a request is up. -/
inductive Expiry (s : Session) : List Resolution → Session → Prop where
  /-- Its calls become nodes as far as their symbols are known. -/
  | adopt {inquiry : Inquiry} {id : TreeId} {ref : NodeRef} {generation : Nat}
    {direction : CallDirection} (pending : s.pending.get? inquiry.token = some inquiry)
    (late : s.now.lt inquiry.deadline = false) (looking : inquiry.lookups ≠ [])
    (purpose : inquiry.purpose = .expand id ref generation direction) (live : s.isLive inquiry) :
    Expiry s (report inquiry (.children (s.childrenOf inquiry ref))) (s.grafted inquiry ref)
  /-- The node does not wait any more. -/
  | lapse {inquiry : Inquiry} (pending : s.pending.get? inquiry.token = some inquiry)
    (late : s.now.lt inquiry.deadline = false) (dead : s.isLive inquiry = false) :
    Expiry s [] (s.dropped inquiry)
  | timeOut {inquiry : Inquiry} (pending : s.pending.get? inquiry.token = some inquiry)
    (late : s.now.lt inquiry.deadline = false) (idle : inquiry.lookups = [])
    (live : s.isLive inquiry) :
    Expiry s (report inquiry (.failure (.timedOut (s.labelOf inquiry.purpose)))) (s.failed inquiry)

/-! ### Moves -/

theorem moves_log {journal : Journal} (h : Moves s t) : Moves s { t with journal := journal } :=
  .tail h (.journal t journal)

/-- The lookups for calls are moves. -/
theorem Sound.moves_seeking (rest : List Call) (h : s.Sound) {index : Nat} (known : List Call)
    (hi : s.pending.get? inquiry.token = some inquiry) (hl : s.isLive inquiry)
    (hc : inquiry.calls = known ++ rest) (hx : known.length = index)
    (hu : ∀ l i, s.lookups.get? l = some (inquiry.token, i) → i < index) :
    Moves s (s.seeking inquiry rest index) := by
  induction rest generalizing s index known inquiry with
  | nil => exact .refl
  | cons call rest ih =>
    have hcall : inquiry.calls[index]? = some call := by simp [hc, ← hx]
    have hmove : Move s _ := .look hi hl hcall fun l he => Nat.lt_irrefl _ (hu l index he)
    refine .head hmove (ih (h.move hmove) (known ++ [call]) (Table.get?_put_self ..) hl ?_ ?_ ?_)
    · simp [hc]
    · simp [hx]
    · exact index_lt_succ_of_put hu

/-- An answer that becomes nodes at once is entered nowhere. -/
theorem grafted_answering {rest : List Arrival} {calls : List Call} {ref : NodeRef} :
    (s.answering rest inquiry calls).grafted (inquiry.answered calls) ref =
      (s.taken rest).grafted (inquiry.answered calls) ref := by
  simp only [grafted, dropped, Inquiry.answered, Table.erase_put]
  rfl

/-- A request for which something is looked up has calls. -/
theorem Sound.calls_of_lookups (h : s.Sound) {k : Token} (hi : s.pending.get? k = some inquiry)
    (hl : inquiry.lookups ≠ []) : inquiry.calls ≠ [] :=
  fun hc => hl (h.looking.lookups_eq_nil hi hc)

/-- A lookup that is under way is on the list of its request. -/
theorem Sound.mem_lookups (h : s.Sound) {l k : Token} {index : Nat}
    (hl : s.lookups.get? l = some (k, index)) (hi : s.pending.get? k = some inquiry) :
    l ∈ inquiry.lookups ∧ index < inquiry.calls.length := by
  obtain ⟨-, -, other, ho, hmem, hlt⟩ := h.looking.known l k index hl
  obtain rfl := Option.some.inj (hi.symm.trans ho)
  exact ⟨hmem, hlt⟩

theorem Sound.calls_of_lookup (h : s.Sound) {l k : Token} {index : Nat}
    (hl : s.lookups.get? l = some (k, index)) (hi : s.pending.get? k = some inquiry) :
    inquiry.calls ≠ [] :=
  h.calls_of_lookups hi (List.ne_nil_of_mem (h.mem_lookups hl hi).1)

/-- The calls of an answer become known, and the time until which their symbols are looked up. -/
theorem Sound.moves_asking (h : s.Sound) {token : Token} {value : Json} {rest : List Arrival}
    {id : TreeId} {ref : NodeRef} {generation : Nat} {direction : CallDirection} {calls : List Call}
    {deadline : Number} (arrivals : s.arrivals = .reply token (.answer value) :: rest)
    (pending : s.pending.get? token = some inquiry)
    (purpose : inquiry.purpose = .expand id ref generation direction) (live : s.isLive inquiry)
    (read : callsOf direction value = .ok calls) (some : calls ≠ [])
    (timely : s.now.add s.settings.timeout = .ok deadline) :
    Moves s { s.taken rest with
      pending := s.pending.put inquiry.token (inquiry.asking calls deadline) } := by
  obtain rfl := (h.waiting.own _ _ pending).1
  have hanswer : Move s (s.answering rest inquiry calls) :=
    .answer arrivals pending purpose live read some
  have hrearm := Move.rearm (s := s.answering rest inquiry calls) (Table.get?_put_self ..) some
    timely
  rw [Table.put_put] at hrearm
  exact .tail (.single hanswer) hrearm

/-- **What arrives has its effect by moves.** -/
theorem Effect.moves {results : List Resolution} (h : s.Sound) (he : Effect s results t) :
    Moves s t := by
  cases he with
  | ignore arrivals => exact .single (.ignore arrivals)
  | stale arrivals pending dead =>
    obtain rfl := (h.waiting.own _ _ pending).1
    exact .tail (.single (.ignore arrivals)) (.drop pending (.inl dead))
  | refuse arrivals pending live =>
    obtain rfl := (h.waiting.own _ _ pending).1
    exact .tail (.single (.ignore arrivals)) (.fail pending live)
  | pass arrivals pending passes =>
    obtain rfl := (h.waiting.own _ _ pending).1
    exact .tail (.single (.ignore arrivals)) (.drop pending (.inr passes.opens))
  | @adopt token value rest inquiry id ref generation direction calls arrivals pending purpose live
      read some =>
    obtain rfl := (h.waiting.own _ _ pending).1
    have hanswer : Move s (s.answering rest inquiry calls) :=
      .answer arrivals pending purpose live read some
    have hgraft : Move _ ((s.answering rest inquiry calls).grafted (inquiry.answered calls) ref) :=
      .graft (Table.get?_put_self ..) live purpose some
    exact grafted_answering ▸ .tail (.single hanswer) hgraft
  | @seek token value rest inquiry id ref generation direction calls deadline arrivals pending
      purpose live read some resolves timely =>
    obtain rfl := (h.waiting.own _ _ pending).1
    have hmoves := h.moves_asking arrivals pending purpose live read some timely
    refine .trans hmoves (Sound.moves_seeking calls (h.moves hmoves) [] (Table.get?_put_self ..)
      live rfl rfl ?_)
    intro l i hl
    have hmem := (h.mem_lookups hl pending).1
    rw [h.lookups_of_reply arrivals pending] at hmem
    cases hmem
  | find arrivals lookup pending tells =>
    exact .single (.find arrivals lookup pending tells.finds)
  | finish arrivals lookup pending tells last purpose live =>
    have hsome := h.calls_of_lookup lookup pending
    exact .tail (.single (.find arrivals lookup pending tells.finds))
      (.graft (Table.get?_put_self ..) live purpose hsome)
  | lapse arrivals lookup pending tells last dead =>
    exact .tail (.single (.find arrivals lookup pending tells.finds))
      (.drop (Table.get?_put_self ..) (.inl dead))

theorem Expiry.moves {results : List Resolution} (h : s.Sound) (he : Expiry s results t) :
    Moves s t := by
  cases he with
  | adopt pending late looking purpose live =>
    exact .single (.graft pending live purpose (h.calls_of_lookups pending looking))
  | lapse pending late dead => exact .single (.drop pending (.inl dead))
  | timeOut pending late idle live => exact .single (.fail pending live)

theorem Chain.moves {R : Session → List Resolution → Session → Prop} {results : List Resolution}
    (hR : ∀ u v more, u.Sound → R u more v → Moves u v) (h : s.Sound) (hc : Chain R s results t) :
    Moves s t := by
  refine hc.keeps (P := Moves s) .refl (fun u journal hu _ => moves_log hu) fun u v more hu hR' => ?_
  exact .trans hu (hR u v more (h.moves hu) hR')

end Session

end SymbolTrees
