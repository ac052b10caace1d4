import SymbolTrees.Json.Display
import SymbolTrees.Text.Integer
import SymbolTrees.Tree.Direction

/-!
Why an operation on trees fails, and how each reason is worded.
-/

namespace SymbolTrees

open SymbolTrees.Text (quoted)

/-- Operations that are refused for what they are asked of. -/
inductive Refusal where
  /-- Only calls can be asked for node by node. -/
  | noCallsIn (direction : Direction)
  | noCallItem (name : Text)
  | noCallTree (direction : Direction)
  /-- The root always shows the nodes below it. -/
  | fixedRoot
  | outlineSwitch
  | noCallRoot (name : Text)
  | noLocation (name : Text)
  /-- A command refuses in its own words. -/
  | custom (text : Text)
deriving Repr, DecidableEq

def Refusal.message : Refusal → Text
  | noCallsIn direction => direction.text ++ " trees cannot be expanded from the server"
  | noCallItem name => name ++ " has no call-hierarchy item to expand"
  | noCallTree direction => s!"cannot open a call tree with direction {quoted direction.text}"
  | fixedRoot => "the root always shows its first level"
  | outlineSwitch => "outline trees have no call direction to switch"
  | noCallRoot name => name ++ " cannot be queried for calls"
  | noLocation name => name ++ " has no resolvable location"
  | custom text => text

/-- Trees, nodes and rows that are asked for and not there. -/
inductive Missing where
  | closedTree (handle : Int)
  | openTree (handle : Int)
  | node (name : Text) (handle : Int)
  | row (line : Option Int)
deriving Repr, DecidableEq

/-- What is said of it. It is only said where the number can be told, see `Missing.fault`. -/
def Missing.message : Missing → Text
  | closedTree handle => s!"tree {handle} is closed"
  | openTree handle => s!"no open tree with handle {handle}"
  | node name handle => name ++ s!" is not part of tree {handle}"
  | row (some line) => s!"no symbol on line {line}"
  | row none => "no symbol on line None"

/-- The number that what is missing is told by. -/
def Missing.number? : Missing → Option Int
  | closedTree handle | openTree handle | node _ handle => some handle
  | row line => line

/-- Whether its number can be told, if it has one. -/
def Missing.isTold (what : Missing) : Bool :=
  what.number?.all fun number => (Text.Integer.text? number).isSome

/-- Everything that ends an operation early. -/
inductive Fault where
  | malformed (reason : Malformed)
  | unknownDirection (name : Text)
  | fixedDirection (name : Text)
  | unknownKind (name : Text)
  /-- The outline of a document holds something that is no symbol. -/
  | noSymbol (value : Json)
  /-- A call tree was to start from something that is no call item. -/
  | noCallPayload
  | refused (reason : Refusal)
  | missing (what : Missing)

def Fault.message : Fault → Text
  | malformed reason => reason.message
  | unknownDirection name => s!"unknown tree direction: {quoted name}"
  | fixedDirection name => s!"direction {quoted name} cannot be switched"
  | unknownKind name => s!"unknown tree kind: {quoted name}"
  | noSymbol value => s!"unsupported document symbol: {value.shown}"
  | noCallPayload => "call trees need a call-hierarchy payload"
  | refused reason => reason.message
  | missing what => what.message

/-- How an operation ends that does not find what it is asked for. Where the number of that is too
long to be told, this is what it fails for. -/
def Missing.fault (what : Missing) : Fault :=
  if what.isTold then .missing what else .malformed .tooLong

theorem Missing.fault_of_isTold {what : Missing} (h : what.isTold) : what.fault = .missing what :=
  if_pos h

theorem Missing.fault_of_not_isTold {what : Missing} (h : ¬what.isTold) :
    what.fault = .malformed .tooLong :=
  if_neg h

/-- A reading that fails ends the operation that needs it. -/
instance : MonadLift (Except Malformed) (Except Fault) where
  monadLift := Except.mapError Fault.malformed

/-- An operation on a state that may end early; what was done until then stays. -/
abbrev Action (σ : Type) := EStateM Fault σ

instance {σ : Type} : MonadLift (Except Fault) (Action σ) where
  monadLift
    | .ok a => pure a
    | .error e => throw e

namespace Direction

/-- The kind of the trees with this direction. -/
def kind (d : Direction) : Except Fault TreeKind :=
  match d.kind? with
  | some k => pure k
  | none => throw (.unknownDirection d.text)

theorem kind_of_kind? {d : Direction} {kind : TreeKind} (h : d.kind? = some kind) :
    d.kind = .ok kind := by
  rw [Direction.kind, h]
  rfl

/-- The other direction of calls. -/
def flip : Direction → Except Fault Direction
  | calls d => pure (calls d.flip)
  | d => throw (.fixedDirection d.text)

end Direction

namespace TreeKind

def ofText (s : Text) : Except Fault TreeKind :=
  match ofText? s with
  | some k => pure k
  | none => throw (.unknownKind s)

end TreeKind

end SymbolTrees
