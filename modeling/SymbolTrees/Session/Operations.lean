import SymbolTrees.Session.Resolution
import SymbolTrees.Tree.Outline

/-!
What a user does with trees: open, unfold, fold, focus, turn round, follow, hide and close them.
Every operation checks what it is asked of before it changes anything.
-/

namespace SymbolTrees.Session

/-- A new tree, opened and recorded. -/
def putTree (t : Tree) : SessionM TreeId := do
  let id ← onRegistry (Registry.plant t)
  let kind ← onRegistry (Registry.put id)
  write .debug s!"registered {kind.text} tree {t.handle}"
  pure id

/-- Opens a tree of calls and asks for its first level. -/
def openCalls (item : CallItem) (direction : Direction) : SessionM TreeId := do
  if direction.calls?.isNone then throw (.refused (.noCallTree direction))
  let handle ← onRegistry Registry.newHandle
  let root ← Node.callRoot (.call item)
  let id ← putTree (← (Tree.make handle root direction none : Except Fault _))
  let _ ← askChildren id ((← get).rootOf id) none
  let _ ← render id
  pure id

/-- Opens the outline of a document on a root that is made once the tree has its handle. -/
def openOutline (uri : Text) (root : Except Fault Node) : SessionM TreeId := do
  let handle ← onRegistry Registry.newHandle
  let id ← putTree (← (Tree.make handle (← root) .outline (some uri) : Except Fault _))
  let _ ← render id
  pure id

/-- The node on a row of an open tree. -/
def nodeAt? (s : Session) (id : TreeId) (line : Int) : Option NodeRef :=
  if s.isOpen id then ((s.tree id).nodeAt? line).map (⟨id, ·⟩) else none

/-- The row for a line of a source file on which a symbol starts. -/
def sourceLine? (s : Session) (id : TreeId) (fileLine : Int) : Option SourceLine :=
  if s.isOpen id then (s.tree id).sourceLine? fileLine else none

/-- The row for the line that the cursor is on: of the symbol that starts there, or, if the cursor
is followed, of the last one before. -/
def follow? (s : Session) (id : TreeId) (fileLine : Int) : Option SourceLine :=
  match s.sourceLine? id fileLine with
  | some row => some row
  | none =>
    if s.settings.autoFollow && s.isOpen id then (s.tree id).nearestSourceLine? fileLine else none

def setExpanded (ref : NodeRef) (expanded : Bool) : SessionM Unit :=
  modifyRegistry fun r => r.updateNode ref fun node => { node with expanded := expanded }

/-- Shows what is below a node, and asks the server if that is not known. -/
def expand (id : TreeId) (ref : NodeRef) : SessionM (Option Token) := do
  requireMember id ref
  let node := (← get).node ref
  if !node.children.isEmpty || node.payload.callItem?.isNone then
    if !node.expanded then
      setExpanded ref true
      let _ ← render id
    pure none
  else if node.expanded then pure none
  else askChildren id ref none

/-- Hides what is below a node. It stays known, and a request for it is given up. -/
def collapse (id : TreeId) (ref : NodeRef) : SessionM Unit := do
  requireMember id ref
  let node := (← get).node ref
  if node.depth = 0 then throw (.refused .fixedRoot)
  giveUp ref
  if node.expanded then
    setExpanded ref false
    let _ ← render id

def toggle (id : TreeId) (ref : NodeRef) : SessionM (Option Token) := do
  let node := (← get).node ref
  if node.expanded && 0 < node.depth then
    collapse id ref
    pure none
  else expand id ref

/-- Opens a new tree on a copy of a node and all below it. -/
def focus (id : TreeId) (ref : NodeRef) : SessionM TreeId := do
  requireMember id ref
  let handle ← onRegistry Registry.newHandle
  let s ← get
  let t := s.tree id
  let copy := (s.node ref).copy 0
  let new ← putTree (← (Tree.make handle copy t.direction t.uri : Except Fault _))
  if t.isCallTree && !copy.isResolved then
    let _ ← askChildren new ((← get).rootOf new) none
  let _ ← render new
  pure new

/-- Turns a tree of calls round and asks for its first level anew. -/
def switchDirection (id : TreeId) : SessionM (Option Token) := do
  requireOpen id
  let t := (← get).tree id
  if !t.isCallTree then throw (.refused .outlineSwitch)
  if t.root.payload.callItem?.isNone then throw (.refused (.noCallRoot t.root.name))
  giveUp ((← get).rootOf id)
  modifyRegistry fun r => r.update id Tree.discardBelowRoot
  let direction ← t.direction.flip
  modifyRegistry fun r => r.update id fun t => { t with direction := direction }
  let token ← askChildren id ((← get).rootOf id) none
  let _ ← render id
  pure token

/-- The location to go to for a node. -/
def jump (id : TreeId) (ref : NodeRef) : SessionM Location := do
  requireMember id ref
  let s ← get
  let node := s.node ref
  match node.payload.location? (s.tree id).uri false with
  | some location => pure location
  | none => throw (.refused (.noLocation node.name))

/-- A node in some lines: its name and kind, its detail, its location, and how often it is called
or calls. -/
def details (id : TreeId) (ref : NodeRef) : SessionM (List Text) := do
  requireMember id ref
  let s ← get
  let node := s.node ref
  let detail ← node.rowDetail s.style.root
  let location ← (node.payload.location? (s.tree id).uri false).mapM fun location => do
    let place ← Whereabouts.ofUri location.uri s.style.root
    match Text.Integer.text? (location.range.start.line + 1) with
    | some line => pure (place.text ++ ":" ++ line)
    | none => throw (.malformed .tooLong)
  let sites := node.callRanges.length
  let noun := if sites = 1 then "call site" else "call sites"
  let calls : List Text := if sites = 0 then [] else [s!"{sites} {noun}"]
  pure ([node.name ++ " (" ++ SymbolKind.labelOf node.kind ++ ")"]
    ++ (if detail = [] then [] else [detail])
    ++ location.toList
    ++ calls)

/-- Closes a tree for good. A handle of no open tree is only reported, if it can be told. -/
def close (handle : Int) : SessionM Bool := do
  match (← get).registry.slots.get? handle with
  | none =>
    match (Missing.openTree handle).fault with
    | .missing what =>
      notify .warning what.message
      pure false
    | fault => throw fault
  | some _ =>
    let (_, kind) ← onRegistry (Registry.close handle)
    write .debug s!"closed {kind.text} tree {handle}"
    modify fun s => { s with buffers := s.buffers.discard handle }
    pure true

/-- Shows or hides the buffer of a tree. -/
def setHidden (handle : Int) (hidden : Bool) : SessionM TreeId := do
  let id ← onRegistry (Registry.setHidden handle hidden)
  modify fun s => { s with buffers := s.buffers.setVisible handle !hidden }
  pure id

/-- Shows the most recent tree of a kind if it is hidden, and otherwise hides it. -/
def toggleHidden (kind : Text) : SessionM (Option TreeId) := do
  let kind ← TreeKind.ofText kind
  let s ← get
  match s.registry.get? kind with
  | none => pure none
  | some id => some <$> setHidden (s.tree id).handle !(s.tree id).hidden

/-- What a finished request leads to: a new tree, a notification, or rows to draw anew. -/
def act (resolution : Resolution) : SessionM (Option TreeId) := do
  match resolution.result, resolution.purpose with
  | .failure reason, _ =>
    notify .warning reason.message
    pure none
  | .items (item :: _), .openCalls _ direction =>
    let _ ← openCalls item (.calls direction)
    pure none
  | .symbols symbols, .openOutline uri =>
    let _ ← openOutline uri (Node.outlineOfJson uri (.arr symbols))
    pure none
  | .children _, .expand id _ _ _ => pure (some id)
  | _, _ => pure none

/-- Applies all that has arrived, opens the trees that were asked for, and draws the trees that
grew. -/
def pump : SessionM (List Resolution) := do
  let resolutions ← drain
  let grown ← resolutions.filterMapM act
  grown.eraseDups.forM fun id => do
    if (← get).isOpen id then
      let _ ← render id
  pure resolutions

end SymbolTrees.Session
