import SymbolTrees.Session.Basic

/-!
Asking the server: for the nodes below a node, for the call items at a position, for the symbols of
a document, and for the symbol of a call item.
-/

namespace SymbolTrees.Session

open SymbolTrees.Server (Outcome Request)

/-- What arrives joins the queue. -/
def arrive (token : Token) (isLookup : Bool) (outcome : Outcome) : SessionM Unit :=
  modify fun s => { s with
    arrivals := s.arrivals ++ [if isLookup then .lookup token outcome else .reply token outcome] }

/-- Sends a request. A recording answers at once. -/
def send (token : Token) (isLookup : Bool) (request : Request) : SessionM Unit := do
  write .debug s!"request {token}: {request.method.text}"
  let client := (← get).client
  modify fun s => { s with
    sent := s.sent ++ [⟨token, isLookup, request, match client with
      | .server => true
      | .replay _ => false⟩] }
  match client with
  | .server => pure ()
  | .replay recording =>
    let value ← Server.Recording.answer recording request.method request.params
    arrive token isLookup (.answer value)

/-- The outcome of the request that was sent as number `i`, from zero; it is settled only once. -/
def settle (i : Nat) (outcome : Outcome) : SessionM Bool := do
  match (← get).sent[i]? with
  | some request =>
    if request.isOpen then
      modify fun s => { s with
        sent := s.sent.modify i fun request => { request with isOpen := false } }
      arrive request.token request.isLookup outcome
      pure true
    else pure false
  | none => pure false

/-- Enters a request that is about to be sent. -/
def enter (token : Token) (purpose : Purpose) : SessionM Unit := do
  let deadline ← deadline
  modify fun s => { s with pending := s.pending.put token ⟨token, purpose, deadline, [], [], []⟩ }

/-- Asks for the nodes below a node unless they are there or asked for already. The direction is
that of the tree if none is given. -/
def askChildren (id : TreeId) (ref : NodeRef) (direction : Option Direction) :
    SessionM (Option Token) := do
  let s ← get
  let node := s.node ref
  let direction := direction.getD (s.tree id).direction
  match direction.calls?, node.payload.callItem? with
  | none, _ => throw (.refused (.noCallsIn direction))
  | some _, none => throw (.refused (.noCallItem node.name))
  | some calls, some item =>
    if !node.children.isEmpty || s.isInFlight node then pure none
    else
      let token ← newToken
      modifyRegistry fun r => r.updateNode ref fun node => { node with pending := some token }
      enter token (.expand id ref (s.tree id).generation calls)
      send token false (.calls calls item)
      pure (some token)

/-- Asks for the call items at a position, to open a tree of their calls. -/
def askItems (uri : Text) (line character : Int) (direction : Direction) : SessionM Token := do
  match direction.calls? with
  | none => throw (.refused (.noCallTree direction))
  | some calls =>
    let token ← newToken
    enter token (.openCalls uri calls)
    send token false (.prepareCalls uri line character)
    pure token

/-- Asks for the symbols of a document, to open its outline. -/
def askOutline (uri : Text) : SessionM Token := do
  let token ← newToken
  enter token (.openOutline uri)
  send token false (.documentSymbols uri)
  pure token

/-- Asks for the symbol of a call of a request that is under way. -/
def askSymbol (parent : Token) (index : Nat) (call : Call) : SessionM Unit := do
  let token ← newToken
  modify fun s => { s with
    lookups := s.lookups.put token (parent, index)
    pending := match s.pending.get? parent with
      | some inquiry =>
        s.pending.put parent { inquiry with lookups := inquiry.lookups ++ [token] }
      | none => s.pending }
  send token true (.workspaceSymbols call.item.name)

/-- The lookups for a request are given up. -/
def dropLookups (inquiry : Inquiry) : SessionM Unit :=
  modify fun s => { s with
    lookups := s.lookups.filter fun entry => !inquiry.lookups.contains entry.1 }

/-- The request for the nodes below a node is given up. -/
def giveUp (ref : NodeRef) : SessionM Unit := do
  let pending := ((← get).node ref).pending
  modifyRegistry fun r => r.updateNode ref fun node => { node with pending := none }
  match pending with
  | none => pure ()
  | some token =>
    match (← get).pending.get? token with
    | none => pure ()
    | some inquiry =>
      modify fun s => { s with pending := s.pending.erase token }
      dropLookups inquiry

end SymbolTrees.Session
