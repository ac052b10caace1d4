import SymbolTrees.Session.Ask

/-!
What becomes of requests. When what has arrived is applied, every request that ends is reported
once: with the nodes, items or symbols of its answer, or with the reason why there are none. What
came too late, or for a node that is not waiting any more, is dropped.
-/

namespace SymbolTrees

open SymbolTrees.Server (Outcome)

/-- Why a request brings nothing. -/
inductive Failure where
  | callsFailed (direction : CallDirection) (name error : Text)
  | noCalls (direction : CallDirection) (name : Text)
  | itemsFailed (error : Text)
  | noItem
  | outlineFailed (error : Text)
  | noSymbols (uri : Text)
  | timedOut (label : Text)
deriving Repr, DecidableEq

def Failure.message : Failure → Text
  | callsFailed direction name error =>
    direction.text ++ " calls for " ++ name ++ " failed: " ++ error
  | noCalls direction name => "no " ++ direction.text ++ " calls for " ++ name
  | itemsFailed error => "prepare call hierarchy failed: " ++ error
  | noItem => "no call hierarchy item at cursor"
  | outlineFailed error => "document symbols failed: " ++ error
  | noSymbols uri => "no document symbols for " ++ uri
  | timedOut label => label ++ ": request timed out"

/-- What a request brings. -/
inductive Result where
  | children (nodes : List Node)
  | items (items : List CallItem)
  | symbols (symbols : List Json)
  | failure (reason : Failure)

/-- A request that ended. -/
structure Resolution where
  token : Token
  purpose : Purpose
  result : Result

namespace Session

/-- Whether somebody still waits for the request: the tree is open and in the same generation, and
the node waits for this request and no other. -/
def isLive (s : Session) (inquiry : Inquiry) : Bool :=
  match inquiry.purpose with
  | .expand id ref generation _ =>
    s.isOpen id && (s.tree id).generation == generation &&
      (s.node ref).pending == some inquiry.token
  | _ => true

/-- Reports a request whose result is in. -/
def report (inquiry : Inquiry) (result : Result) : List Resolution :=
  [⟨inquiry.token, inquiry.purpose, result⟩]

def remove (inquiry : Inquiry) : SessionM Unit :=
  modify fun s => { s with pending := s.pending.erase inquiry.token }

def dropStale (inquiry : Inquiry) : SessionM (List Resolution) := do
  write .debug s!"dropping stale response for request {inquiry.token}"
  pure []

/-- Ends a request that brings nothing. -/
def fail (inquiry : Inquiry) (reason : Failure) : SessionM (List Resolution) := do
  remove inquiry
  dropLookups inquiry
  if !(← get).isLive inquiry then pure []
  else
    match inquiry.purpose with
    | .expand _ ref _ _ =>
      modifyRegistry fun r => r.updateNode ref fun node => { node with pending := none }
    | _ => pure ()
    write .warning reason.message
    pure (report inquiry (.failure reason))

/-- The node of a call: the symbol that was found for it, or the item itself. -/
def childOf (depth : Int) (call : Call) (symbol : Option LocatedSymbol) : Node :=
  match symbol with
  | some symbol => .leaf (.located symbol (some call.item)) depth call.ranges
  | none => .leaf (.call call.item) depth call.ranges

/-- Puts the nodes of the calls below the node that waits for them. -/
def graft (inquiry : Inquiry) : SessionM (List Resolution) := do
  remove inquiry
  dropLookups inquiry
  if !(← get).isLive inquiry then dropStale inquiry
  else
    match inquiry.purpose with
    | .expand _ ref _ _ =>
      let depth := ((← get).node ref).depth + 1
      let children := inquiry.calls.zipWith (childOf depth) inquiry.found
      modifyRegistry fun r => r.updateNode ref fun node =>
        { node with children := children, expanded := true, pending := none }
      pure (report inquiry (.children children))
    | _ => pure []

/-- The entries of an answer that are objects; an answer that is nothing has none. -/
def objects (value : Json) : Except Malformed (List Json) :=
  return (← Json.entriesOrNone (some value)).filter Json.isObject

/-- The calls of an answer. -/
def callsOf (direction : CallDirection) (value : Json) : Except Malformed (List Call) := do
  (← objects value).mapM fun entry => Call.ofJson entry direction.peer

/-- The call items of an answer. -/
def itemsOf (value : Json) : Except Malformed (List CallItem) := do
  (← objects value).mapM CallItem.ofJson

/-- The outcome of a request for the nodes below a node. -/
def completeExpansion (inquiry : Inquiry) (ref : NodeRef) (direction : CallDirection)
    (outcome : Outcome) : SessionM (List Resolution) := do
  if !(← get).isLive inquiry then
    remove inquiry
    dropStale inquiry
  else
    let name := ((← get).node ref).name
    match outcome with
    | .answer value =>
      let calls ← callsOf direction value
      if calls.isEmpty then fail inquiry (.noCalls direction name)
      else
        let answered := { inquiry with calls := calls, found := calls.map fun _ => none }
        modify fun s => { s with pending := s.pending.put inquiry.token answered }
        if (← get).settings.resolveSymbols then
          let deadline ← deadline
          modify fun s => { s with
            pending := s.pending.put inquiry.token { answered with deadline := deadline } }
          calls.zipIdx.forM fun (call, i) => askSymbol inquiry.token i call
          pure []
        else graft answered
    | outcome => fail inquiry (.callsFailed direction name (outcome.error?.getD []))

/-- The outcome of a lookup. A lookup that fails leaves the call as it is; after the last one the
calls become nodes. -/
def completeLookup (token : Token) (outcome : Outcome) : SessionM (List Resolution) := do
  match (← get).lookups.get? token with
  | none =>
    write .debug s!"request {token} settled after it was superseded"
    pure []
  | some (parent, i) =>
    modify fun s => { s with lookups := s.lookups.erase token }
    match (← get).pending.get? parent with
    | none => pure []
    | some inquiry =>
      let waiting := { inquiry with lookups := inquiry.lookups.filter (· ≠ token) }
      modify fun s => { s with pending := s.pending.put parent waiting }
      let settled ← match outcome, waiting.calls[i]? with
        | .answer value, some call => do
          let symbol ← LocatedSymbol.find? call.item value
          pure { waiting with found := waiting.found.set i symbol }
        | .answer _, none => pure waiting
        | outcome, _ => do
          let error := outcome.error?.getD []
          write .debug (s!"workspace symbol lookup {token} failed: " ++ error)
          pure waiting
      modify fun s => { s with pending := s.pending.put parent settled }
      if settled.lookups.isEmpty then graft settled else pure []

/-- The outcome of a request for call items. -/
def completeItems (inquiry : Inquiry) (outcome : Outcome) : SessionM (List Resolution) := do
  match outcome with
  | .answer value =>
    let items ← itemsOf value
    if items.isEmpty then fail inquiry .noItem
    else
      remove inquiry
      pure (report inquiry (.items items))
  | outcome => fail inquiry (.itemsFailed (outcome.error?.getD []))

/-- The outcome of a request for the symbols of a document. -/
def completeOutline (inquiry : Inquiry) (uri : Text) (outcome : Outcome) :
    SessionM (List Resolution) := do
  match outcome with
  | .answer value =>
    if !value.isPresent then fail inquiry (.noSymbols uri)
    else
      remove inquiry
      let symbols ← value.entries
      pure (report inquiry (.symbols symbols))
  | outcome => fail inquiry (.outlineFailed (outcome.error?.getD []))

/-- Applies one arrival. -/
def complete : Arrival → SessionM (List Resolution)
  | .lookup token outcome => completeLookup token outcome
  | .reply token outcome => do
    match (← get).pending.get? token with
    | none =>
      write .debug s!"request {token} settled after it was superseded"
      pure []
    | some inquiry =>
      match inquiry.purpose with
      | .expand _ ref _ direction => completeExpansion inquiry ref direction outcome
      | .openCalls .. => completeItems inquiry outcome
      | .openOutline uri => completeOutline inquiry uri outcome

/-- Applies up to a number of arrivals, the oldest first. -/
def applyArrivals : Nat → SessionM (List Resolution)
  | 0 => pure []
  | n + 1 => do
    match (← get).arrivals with
    | [] => pure []
    | arrival :: rest =>
      modify fun s => { s with arrivals := rest }
      let first ← complete arrival
      let more ← applyArrivals n
      pure (first ++ more)

/-- What a request is called when its time is up. -/
def labelOf (s : Session) : Purpose → Text
  | .expand _ ref _ _ => (s.node ref).name
  | purpose => purpose.method.text

/-- Ends a request whose time is up. Calls whose symbols are not all found become nodes as they
are. -/
def expire (inquiry : Inquiry) : SessionM (List Resolution) := do
  if (← get).now.lt inquiry.deadline then pure []
  else if !inquiry.lookups.isEmpty then
    write .debug s!"workspace symbol lookups for request {inquiry.token} timed out"
    graft inquiry
  else
    fail inquiry (.timedOut ((← get).labelOf inquiry.purpose))

/-- Applies all that has arrived, and then ends the requests whose time is up. Replies can make a
recording answer lookups at once; lookups make nothing more arrive, so a second round leaves
nothing. -/
def drain : SessionM (List Resolution) := do
  let first ← applyArrivals (← get).arrivals.length
  let second ← applyArrivals (← get).arrivals.length
  let expired ← (← get).pending.mapM fun entry => expire entry.2
  pure (first ++ second ++ expired.flatten)

end Session

end SymbolTrees
