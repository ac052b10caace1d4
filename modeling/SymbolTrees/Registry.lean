import SymbolTrees.Tree.Basic

/-!
The trees of a session: every tree ever planted, the open ones by their handles, and the most
recent tree of each kind. Handles are given out in ascending order and never again.
-/

namespace SymbolTrees

/-- The number of a tree in the order of planting. -/
abbrev TreeId := Nat

/-- A node by its tree and its place there. -/
structure NodeRef where
  tree : TreeId
  place : Place
deriving Repr, DecidableEq, Inhabited

structure Registry where
  trees : List Tree
  /-- The open trees by their handles. -/
  slots : Table Int TreeId
  recentCalls : Option Int
  recentOutline : Option Int
  nextHandle : Int

abbrev RegistryM := Action Registry

namespace Registry

def empty : Registry := ⟨[], [], none, none, 1⟩

def tree (r : Registry) (id : TreeId) : Tree := r.trees.getD id .vacant

/-- The handle of the most recent tree of a kind. -/
def recent (r : Registry) : TreeKind → Option Int
  | .calls => r.recentCalls
  | .outline => r.recentOutline

def setRecent (r : Registry) (kind : TreeKind) (handle : Option Int) : Registry :=
  match kind with
  | .calls => { r with recentCalls := handle }
  | .outline => { r with recentOutline := handle }

def update (r : Registry) (id : TreeId) (f : Tree → Tree) : Registry :=
  { r with trees := r.trees.modify id f }

def node (r : Registry) (ref : NodeRef) : Node := (r.tree ref.tree).node ref.place

def updateNode (r : Registry) (ref : NodeRef) (f : Node → Node) : Registry :=
  r.update ref.tree fun t => t.modify ref.place f

/-- Whether a node is part of a tree. -/
def isMember (r : Registry) (id : TreeId) (ref : NodeRef) : Bool :=
  ref.tree == id && (r.tree id).contains ref.place

/-- The open trees in the order in which they were put. -/
def openTrees (r : Registry) : List TreeId := r.slots.map (·.2)

def openHandles (r : Registry) : List Int := r.slots.map (·.1)

def isOpen (r : Registry) (id : TreeId) : Bool :=
  !(r.tree id).closed && r.slots.get? (r.tree id).handle == some id

/-- The most recent tree of a kind, if it is open. -/
def get? (r : Registry) (kind : TreeKind) : Option TreeId :=
  (r.recent kind).bind r.slots.get?

def newHandle : RegistryM Int :=
  modifyGet fun r => (r.nextHandle, { r with nextHandle := r.nextHandle + 1 })

/-- A new tree is planted but not open yet. -/
def plant (t : Tree) : RegistryM TreeId :=
  modifyGet fun r => (r.trees.length, { r with trees := r.trees ++ [t] })

/-- Opens a tree and makes it the most recent one of its kind. -/
def put (id : TreeId) : RegistryM TreeKind := do
  let t := (← get).tree id
  if t.closed then throw (Missing.closedTree t.handle).fault
  modify fun r => { r with slots := r.slots.put t.handle id }
  let kind ← t.direction.kind
  modify fun r => r.setRecent kind (some t.handle)
  pure kind

/-- The open tree with a handle. -/
def lookup (handle : Int) : RegistryM TreeId := do
  match (← get).slots.get? handle with
  | some id => pure id
  | none => throw (Missing.openTree handle).fault

/-- Closes a tree for good. -/
def close (handle : Int) : RegistryM (TreeId × TreeKind) := do
  let id ← lookup handle
  modify fun r => { r with slots := r.slots.erase handle }.update id Tree.close
  let kind ← ((← get).tree id).direction.kind
  if (← get).recent kind = some handle then
    modify fun r => r.setRecent kind none
  pure (id, kind)

/-- Shows or hides a tree, which stays open. -/
def setHidden (handle : Int) (hidden : Bool) : RegistryM TreeId := do
  let id ← lookup handle
  modify fun r => r.update id fun t => { t with hidden := hidden }
  pure id

end Registry

end SymbolTrees
