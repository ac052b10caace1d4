import SymbolTrees.Buffer
import SymbolTrees.Journal
import SymbolTrees.Registry
import SymbolTrees.Server.Recording
import SymbolTrees.Settings.Basic
import SymbolTrees.View.Row

/-!
Sessions. A session holds the trees, the requests that are under way, what has arrived from the
server and is not applied yet, and the buffers of the editor.

Answers only join a queue when they arrive; they are applied when the session is pumped, in the
order of arrival.
-/

namespace SymbolTrees

open SymbolTrees.Server (Outcome Recording.answer Request)

/-- What a request is made for. -/
inductive Purpose where
  /-- The nodes below a node, for a tree in one of its generations. -/
  | expand (tree : TreeId) (node : NodeRef) (generation : Nat) (direction : CallDirection)
  /-- The call items at a position, to open a tree of calls. -/
  | openCalls (uri : Text) (direction : CallDirection)
  /-- The symbols of a document, to open its outline. -/
  | openOutline (uri : Text)
deriving Repr, DecidableEq

def Purpose.method : Purpose → Server.Method
  | expand _ _ _ direction => .calls direction
  | openCalls .. => .prepareCalls
  | openOutline _ => .documentSymbols

/-- A request that is under way. -/
structure Inquiry where
  token : Token
  purpose : Purpose
  /-- When it is given up. -/
  deadline : Number
  /-- The calls of the answer, while their symbols are looked up. -/
  calls : List Call
  /-- The symbols found for the calls, one for each. -/
  found : List (Option LocatedSymbol)
  /-- The lookups that are under way. -/
  lookups : List Token

/-- What has arrived: the outcome of a request, or of the lookup of a symbol for one. -/
inductive Arrival where
  | reply (token : Token) (outcome : Outcome)
  | lookup (token : Token) (outcome : Outcome)

/-- A request as it was sent. -/
structure Sent where
  token : Token
  isLookup : Bool
  request : Request
  /-- Whether its outcome is still to come. -/
  isOpen : Bool

/-- The other side: a server that answers in its own time, or a recording that answers at once. -/
inductive Client where
  | server
  | replay (recording : Json)

structure Session where
  settings : Settings
  style : Style
  client : Client
  now : Number
  registry : Registry
  pending : Table Token Inquiry
  /-- The lookups under way: for which request, and for which of its calls. -/
  lookups : Table Token (Token × Nat)
  nextToken : Token
  arrivals : List Arrival
  sent : List Sent
  buffers : Buffers
  journal : Journal

abbrev SessionM := Action Session

namespace Session

/-- A new session on a workspace. -/
def start (client : Client) (settings : Settings) (root : Path) (now : Number) : Session where
  settings := settings
  style := ⟨.ofName (some settings.icons), settings.guides, root⟩
  client := client
  now := now
  registry := .empty
  pending := []
  lookups := []
  nextToken := 1
  arrivals := []
  sent := []
  buffers := []
  journal := .empty

def tree (s : Session) (id : TreeId) : Tree := s.registry.tree id

def node (s : Session) (ref : NodeRef) : Node := s.registry.node ref

def isOpen (s : Session) (id : TreeId) : Bool := s.registry.isOpen id

/-- The node at the root of a tree. -/
def rootOf (s : Session) (id : TreeId) : NodeRef := ⟨id, (s.tree id).place []⟩

/-- Whether a request for the node is under way. -/
def isInFlight (s : Session) (node : Node) : Bool :=
  match node.pending with
  | some token => s.pending.contains token
  | none => false

def write (level : Level) (message : Text) : SessionM Unit :=
  modify fun s => { s with journal := s.journal.write level message }

def notify (urgency : Urgency) (message : Text) : SessionM Unit :=
  modify fun s => { s with journal := s.journal.notify urgency message }

def modifyRegistry (f : Registry → Registry) : SessionM Unit :=
  modify fun s => { s with registry := f s.registry }

/-- An operation on the registry as one on the session. -/
def onRegistry {α : Type} (act : RegistryM α) : SessionM α := fun s =>
  match act s.registry with
  | .ok a r => .ok a { s with registry := r }
  | .error e r => .error e { s with registry := r }

def newToken : SessionM Token :=
  modifyGet fun s => (s.nextToken, { s with nextToken := s.nextToken + 1 })

/-- When a request that is sent now is given up. -/
def deadline : SessionM Number := do
  let s ← get
  s.now.add s.settings.timeout

def requireOpen (id : TreeId) : SessionM Unit := do
  let s ← get
  if !s.isOpen id then throw (Missing.closedTree (s.tree id).handle).fault

def requireMember (id : TreeId) (ref : NodeRef) : SessionM Unit := do
  requireOpen id
  let s ← get
  if !s.registry.isMember id ref then
    throw (Missing.node (s.node ref).name (s.tree id).handle).fault

/-- Draws a tree anew: its maps and its buffer are replaced. -/
def render (id : TreeId) : SessionM View := do
  requireOpen id
  let s ← get
  let t := s.tree id
  let view ← View.ofTree t s.style
  set { s with
    registry := s.registry.update id fun t => t.show view
    buffers := s.buffers.replace t.handle view.lines view.annotations }
  pure view

end Session

end SymbolTrees
