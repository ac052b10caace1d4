import Mathlib.Logic.Relation
import SymbolTrees.Proofs.Session.Queue
import SymbolTrees.Session.Operations

/-!
# Moves

All that a session does, cut into the least changes after which its tables agree again. Every
operation is a row of moves, also where it fails half-way, so whatever every move keeps is kept by
every run. Only that outcomes arrive (`arrived`) and that time goes by (`ticked`) is nothing that a
session does.
-/

namespace SymbolTrees

open SymbolTrees.Server (Outcome Request)

namespace Session

/-! ### What a move makes of a session -/

/-- A node waits for the next request. -/
def awaiting (s : Session) (ref : NodeRef) : Session :=
  { s with
    registry := s.registry.updateNode ref fun node => { node with pending := some s.nextToken }
    nextToken := s.nextToken + 1 }

/-- A request is entered. -/
def entered (s : Session) (token : Token) (purpose : Purpose) (deadline : Number) : Session :=
  { s with pending := s.pending.put token ⟨token, purpose, deadline, [], [], []⟩ }

/-- A request is sent. -/
def posted (s : Session) (token : Token) (isLookup : Bool) (request : Request) : Session :=
  { s with
    journal := s.journal.write .debug s!"request {token}: {request.method.text}"
    sent := s.sent ++ [⟨token, isLookup, request, s.client.isServer⟩]
    arrivals := s.arrivals ++ s.client.prompt isLookup token request }

/-- A node waits no more. -/
def released (s : Session) (ref : NodeRef) : Session :=
  { s with registry := s.registry.updateNode ref fun node => { node with pending := none } }

/-- A request is forgotten with all its lookups. -/
def dropped (s : Session) (inquiry : Inquiry) : Session :=
  { s with
    pending := s.pending.erase inquiry.token
    lookups := s.lookups.filter fun entry => !inquiry.lookups.contains entry.1 }

/-- What is looked up after a request was forgotten. -/
theorem of_get?_dropped {s : Session} {inquiry : Inquiry} {l : Token} {target : Token × Nat}
    (h : (s.dropped inquiry).lookups.get? l = some target) :
    l ∉ inquiry.lookups ∧ s.lookups.get? l = some target := by
  obtain ⟨hl, h⟩ := Table.of_get?_filter (fun k => !inquiry.lookups.contains k) h
  exact ⟨by simpa using hl, h⟩

/-- The request that a node waits for. -/
def inquiryOf (s : Session) (ref : NodeRef) : Option Inquiry :=
  (s.node ref).pending.bind s.pending.get?

/-- The request that a node waits for is given up. -/
def givenUp (s : Session) (ref : NodeRef) : Session :=
  match s.inquiryOf ref with
  | none => s.released ref
  | some inquiry => (s.dropped inquiry).released ref

theorem registry_givenUp (s : Session) (ref : NodeRef) :
    (s.givenUp ref).registry =
      s.registry.updateNode ref fun node => { node with pending := none } := by
  unfold givenUp
  split <;> rfl

/-- A node is opened or closed. -/
def unfolded (s : Session) (ref : NodeRef) (expanded : Bool) : Session :=
  { s with registry := s.registry.updateNode ref fun node => { node with expanded := expanded } }

/-- A request ends without a result. -/
def failed (s : Session) (inquiry : Inquiry) : Session :=
  match inquiry.purpose with
  | .expand _ ref _ _ => (s.dropped inquiry).released ref
  | _ => s.dropped inquiry

/-- The nodes that a request brings to a node. -/
def childrenOf (s : Session) (inquiry : Inquiry) (ref : NodeRef) : List Node :=
  inquiry.calls.zipWith (childOf ((s.node ref).depth + 1)) inquiry.found

/-- A request ends, and its nodes are put below the node that waits for them. -/
def grafted (s : Session) (inquiry : Inquiry) (ref : NodeRef) : Session :=
  { s.dropped inquiry with
    registry := s.registry.updateNode ref fun node =>
      { node with children := s.childrenOf inquiry ref, expanded := true, pending := none } }

/-- The symbol of a call is asked for. -/
def looking (s : Session) (parent : Token) (inquiry : Inquiry) (index : Nat) : Session :=
  { s with
    nextToken := s.nextToken + 1
    lookups := s.lookups.put s.nextToken (parent, index)
    pending := s.pending.put parent
      { inquiry with lookups := inquiry.lookups ++ [s.nextToken] } }

/-- The outcome of the request that was sent as number `i` arrives. -/
def arrived (s : Session) (i : Nat) (request : Sent) (outcome : Outcome) : Session :=
  { s with
    sent := s.sent.modify i Sent.settled
    arrivals := s.arrivals ++ [.of request.isLookup request.token outcome] }

/-- The clock is read. -/
def ticked (s : Session) (now : Number) : Session := { s with now := now }

/-! ### Moves -/

/-- A node of an open tree. -/
structure Member (s : Session) (id : TreeId) (ref : NodeRef) : Prop where
  isOpen : s.isOpen id
  tree : ref.tree = id
  contains : (s.tree id).contains ref.place

/-- The nodes below a node are to be asked for: it stands for an item, there are none yet, and it
is neither opened nor waiting. -/
structure Askable (s : Session) (id : TreeId) (ref : NodeRef) (direction : CallDirection)
    (item : CallItem) : Prop where
  member : s.Member id ref
  direction : (s.tree id).direction = .calls direction
  item : (s.node ref).payload.callItem? = some item
  leaf : (s.node ref).children = []
  closed : (s.node ref).expanded = false
  idle : s.isInFlight (s.node ref) = false

/-- The roots that trees start from: an item on its own, a copy of a node, a whole outline. -/
inductive Seed (s : Session) : Direction → Node → Prop where
  | call (item : CallItem) (direction : CallDirection) :
    Seed s (.calls direction) (.leaf (.call item) 0 [])
  | copy {id : TreeId} {path : List Nat} {node : Node} (isOpen : s.isOpen id)
    (found : (s.tree id).root.at? path = some node) :
    Seed s (s.tree id).direction (node.copy 0)
  | outline {uri : Text} {entries : List Node.Entry} {root : Node}
    (made : Node.outline uri entries = .ok root) : Seed s .outline { root with depth := 0 }

/-- Requests that are made for no node. -/
inductive Opens : Purpose → Request → Prop where
  | calls (uri : Text) (line character : Int) (direction : CallDirection) :
    Opens (.openCalls uri direction) (.prepareCalls uri line character)
  | outline (uri : Text) : Opens (.openOutline uri) (.documentSymbols uri)

/-- What is found for the calls of a request once the outcome of a lookup is in. -/
inductive Finds (inquiry : Inquiry) (index : Nat) :
    Outcome → List (Option LocatedSymbol) → Prop where
  | same (outcome : Outcome) : Finds inquiry index outcome inquiry.found
  | symbol {value : Json} {call : Call} {symbol : Option LocatedSymbol}
    (isCall : inquiry.calls[index]? = some call)
    (found : LocatedSymbol.find? call.item value = .ok symbol) :
    Finds inquiry index (.answer value) (inquiry.found.set index symbol)

inductive Move : Session → Session → Prop where
  | journal (s : Session) (journal : Journal) : Move s { s with journal := journal }
  | draw {s : Session} {id : TreeId} {view : View} (isOpen : s.isOpen id)
    (drawn : View.ofTree (s.tree id) s.style = .ok view) :
    Move s { s with
      registry := s.registry.update id fun t => t.show view
      buffers := s.buffers.replace (s.tree id).handle view.lines view.annotations }
  | hide {s : Session} {handle : Int} {id : TreeId} (hidden : Bool)
    (slot : s.registry.slots.get? handle = some id) :
    Move s { s with
      registry := s.registry.update id fun t => { t with hidden := hidden }
      buffers := s.buffers.setVisible handle !hidden }
  | close {s : Session} {handle : Int} {id : TreeId} {kind : TreeKind}
    (slot : s.registry.slots.get? handle = some id)
    (isKind : (s.tree id).direction.kind? = some kind) :
    Move s { s with
      registry := s.registry.without handle id kind
      buffers := s.buffers.discard handle }
  | issue (s : Session) :
    Move s { s with registry := { s.registry with nextHandle := s.registry.nextHandle + 1 } }
  | plant {s : Session} {handle : Int} {root : Node} {direction : Direction} {uri : Option Text}
    {kind : TreeKind} (issued : handle < s.registry.nextHandle)
    (unused : ∀ id < s.registry.trees.length, (s.tree id).handle < handle)
    (seed : Seed s direction root) (isKind : direction.kind? = some kind) :
    Move s { s with
      registry :=
        s.registry.including ⟨handle, root, direction, uri, false, false, [], [], []⟩ kind }
  | ask {s : Session} {id : TreeId} {ref : NodeRef} {direction : CallDirection} {item : CallItem}
    {deadline : Number} (askable : s.Askable id ref direction item)
    (timely : s.now.add s.settings.timeout = .ok deadline) :
    Move s (((s.awaiting ref).entered s.nextToken
      (.expand id ref (s.tree id).generation direction) deadline).posted s.nextToken false
        (.calls direction item))
  /-- The deadline cannot be told. -/
  | askInVain {s : Session} {id : TreeId} {ref : NodeRef} {direction : CallDirection}
    {item : CallItem} {reason : Malformed} (askable : s.Askable id ref direction item)
    (untimely : s.now.add s.settings.timeout = .error reason) : Move s (s.awaiting ref)
  | inquire {s : Session} {purpose : Purpose} {request : Request} {deadline : Number}
    (opens : Opens purpose request) (timely : s.now.add s.settings.timeout = .ok deadline) :
    Move s (({ s with nextToken := s.nextToken + 1 }.entered s.nextToken purpose deadline).posted
      s.nextToken false request)
  | skip (s : Session) : Move s { s with nextToken := s.nextToken + 1 }
  | giveUp {s : Session} {id : TreeId} {ref : NodeRef} (member : s.Member id ref) :
    Move s (s.givenUp ref)
  | unfold {s : Session} {id : TreeId} {ref : NodeRef} {expanded : Bool} (member : s.Member id ref)
    (known : expanded = true →
      (s.node ref).children ≠ [] ∨ (s.node ref).payload.callItem? = none) :
    Move s (s.unfolded ref expanded)
  | turn {s : Session} {id : TreeId} {direction : CallDirection} (isOpen : s.isOpen id)
    (turned : (s.tree id).direction = .calls direction)
    (idle : (s.tree id).root.pending = none) :
    Move s { s with registry := s.registry.update id fun t => t.turned direction.flip }
  /-- What has arrived is not asked for any more, or cannot be read. -/
  | ignore {s : Session} {arrival : Arrival} {rest : List Arrival}
    (arrivals : s.arrivals = arrival :: rest) : Move s { s with arrivals := rest }
  | answer {s : Session} {token : Token} {value : Json} {rest : List Arrival} {inquiry : Inquiry}
    {id : TreeId} {ref : NodeRef} {generation : Nat} {direction : CallDirection} {calls : List Call}
    (arrivals : s.arrivals = .reply token (.answer value) :: rest)
    (pending : s.pending.get? token = some inquiry)
    (purpose : inquiry.purpose = .expand id ref generation direction) (live : s.isLive inquiry)
    (read : callsOf direction value = .ok calls) (some : calls ≠ []) :
    Move s { s with
      arrivals := rest
      pending := s.pending.put token
        { inquiry with calls := calls, found := calls.map fun _ => none } }
  | rearm {s : Session} {token : Token} {inquiry : Inquiry} {deadline : Number}
    (pending : s.pending.get? token = some inquiry) (some : inquiry.calls ≠ [])
    (timely : s.now.add s.settings.timeout = .ok deadline) :
    Move s { s with pending := s.pending.put token { inquiry with deadline := deadline } }
  | look {s : Session} {parent : Token} {inquiry : Inquiry} {index : Nat} {call : Call}
    (pending : s.pending.get? parent = some inquiry) (live : s.isLive inquiry)
    (isCall : inquiry.calls[index]? = some call)
    (unasked : ∀ token, s.lookups.get? token ≠ some (parent, index)) :
    Move s ((s.looking parent inquiry index).posted s.nextToken true
      (.workspaceSymbols call.item.name))
  | find {s : Session} {token parent : Token} {outcome : Outcome} {rest : List Arrival}
    {inquiry : Inquiry} {index : Nat} {found : List (Option LocatedSymbol)}
    (arrivals : s.arrivals = .lookup token outcome :: rest)
    (lookup : s.lookups.get? token = some (parent, index))
    (pending : s.pending.get? parent = some inquiry) (finds : Finds inquiry index outcome found) :
    Move s { s with
      arrivals := rest
      lookups := s.lookups.erase token
      pending := s.pending.put parent
        { inquiry with lookups := inquiry.lookups.filter (· ≠ token), found := found } }
  /-- Nobody waits any more, or an answer is passed on that is for no node. -/
  | drop {s : Session} {inquiry : Inquiry}
    (pending : s.pending.get? inquiry.token = some inquiry)
    (ended : s.isLive inquiry = false ∨ ∃ request, Opens inquiry.purpose request) :
    Move s (s.dropped inquiry)
  | fail {s : Session} {inquiry : Inquiry}
    (pending : s.pending.get? inquiry.token = some inquiry) (live : s.isLive inquiry) :
    Move s (s.failed inquiry)
  | graft {s : Session} {inquiry : Inquiry} {id : TreeId} {ref : NodeRef} {generation : Nat}
    {direction : CallDirection} (pending : s.pending.get? inquiry.token = some inquiry)
    (live : s.isLive inquiry) (purpose : inquiry.purpose = .expand id ref generation direction)
    (some : inquiry.calls ≠ []) : Move s (s.grafted inquiry ref)

/-- Any number of moves, one after the other. -/
def Moves : Session → Session → Prop := Relation.ReflTransGen Move

end Session

end SymbolTrees
