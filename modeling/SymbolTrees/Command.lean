import SymbolTrees.Session.Operations

/-!
Commands: operations by name, on the most recent tree of a kind and the node on a row. A command
either acts or tells the user why it does not.
-/

namespace SymbolTrees

/-- What a command does with a tree and a row. -/
inductive Command where
  | expand | collapse | toggle | focus | jump | details | switch | close | hide | show
  /-- Names the tree and the row that it is called with. -/
  | report
  /-- Refuses in its own words. -/
  | refuse (text : Text)
deriving Repr, DecidableEq

/-- A command with whether it needs a row. -/
structure Binding where
  command : Command
  needsRow : Bool
deriving Repr, DecidableEq

/-- What a command answers. -/
inductive Reply where
  | nothing
  | token (token : Token)
  | opened (tree : TreeId)
  | location (location : Location)
  | lines (lines : List Text)
  | closed (done : Bool)
  | called (tree : TreeId) (row : Option Int)
deriving Repr, DecidableEq

/-- The commands by name, and the kind of trees that they are for unless another is given. -/
structure Commands where
  bindings : Table Text Binding
  kind : TreeKind
deriving Repr, DecidableEq

namespace Commands

def builtIn : Table Text Binding :=
  [("expand", ⟨.expand, true⟩), ("collapse", ⟨.collapse, true⟩), ("toggle", ⟨.toggle, true⟩),
   ("focus", ⟨.focus, true⟩), ("jump", ⟨.jump, true⟩), ("details", ⟨.details, true⟩),
   ("switch", ⟨.switch, false⟩), ("close", ⟨.close, false⟩), ("hide", ⟨.hide, false⟩),
   ("show", ⟨.show, false⟩)]

def default : Commands := ⟨builtIn, .calls⟩

def register (commands : Commands) (name : Text) (binding : Binding) : Commands :=
  { commands with bindings := commands.bindings.put name binding }

/-- The names in alphabetical order. -/
def names (commands : Commands) : List Text :=
  (commands.bindings.map (·.1)).mergeSort Text.le

def useKind (commands : Commands) (kind : Text) : Except Fault Commands := do
  return { commands with kind := ← TreeKind.ofText kind }

end Commands

namespace Session

/-- The node on a row of a tree. -/
def nodeOnRow (id : TreeId) (row : Option Int) : SessionM NodeRef := do
  match row.bind ((← get).tree id).nodeAt? with
  | some place => pure ⟨id, place⟩
  | none => throw (Missing.row row).fault

def tokenReply : Option Token → Reply
  | some token => .token token
  | none => .nothing

/-- Carries out a command on a tree. -/
def carryOut (command : Command) (id : TreeId) (row : Option Int) : SessionM Reply := do
  match command with
  | .expand => tokenReply <$> (expand id (← nodeOnRow id row))
  | .collapse =>
    collapse id (← nodeOnRow id row)
    pure .nothing
  | .toggle => tokenReply <$> toggle id (← nodeOnRow id row)
  | .focus => .opened <$> focus id (← nodeOnRow id row)
  | .jump => .location <$> jump id (← nodeOnRow id row)
  | .details => .lines <$> details id (← nodeOnRow id row)
  | .switch => tokenReply <$> switchDirection id
  | .close => .closed <$> close ((← get).tree id).handle
  | .hide => .opened <$> setHidden ((← get).tree id).handle true
  | .show => .opened <$> setHidden ((← get).tree id).handle false
  | .report => pure (.called id row)
  | .refuse text => throw (.refused (.custom text))

/-- Tells the user why a command does nothing. -/
def explain (urgency : Urgency) (message : Text) : SessionM Reply := do
  notify urgency message
  pure .nothing

/-- The kind that a command is for: the one given, unless that is empty. -/
def kindFor (commands : Commands) (kind : Option Text) : Except Fault TreeKind :=
  match kind.filter (· ≠ []) with
  | some kind => TreeKind.ofText kind
  | none => pure commands.kind

/-- Runs the command of a name. What it is refused for, or does not find, is told to the user. -/
def run (commands : Commands) (name : Text) (row : Option Int) (kind : Option Text) :
    SessionM Reply := do
  match commands.bindings.get? name with
  | none => explain .error ("unknown command: " ++ name)
  | some binding =>
    if binding.needsRow && row.isNone then explain .warning (name ++ " needs a line")
    else
      let kind ← kindFor commands kind
      match (← get).registry.get? kind with
      | none => explain .warning s!"no {kind.text} tree is open"
      | some id =>
        tryCatch (carryOut binding.command id row) fun
          | .refused reason => explain .warning reason.message
          | .missing what => explain .warning what.message
          | fault => throw fault

end Session

end SymbolTrees
