import SymbolTrees.Proofs.Action
import SymbolTrees.Session.Operations

/-!
# Runs of a session

What happens to a session from outside: what its user asks for, what the server answers, and that
time goes by. A run is any list of such events. An event that fails leaves the session in the state
that it got it into, and the run goes on from there.
-/

namespace SymbolTrees

/-- The state in which an action leaves off, at its end or early. -/
def Action.after {σ α : Type} (x : Action σ α) (s : σ) : σ :=
  match x s with
  | .ok _ t => t
  | .error _ t => t

/-- What an action answers, or why it ends early. -/
def Action.answer {σ α : Type} (x : Action σ α) (s : σ) : Except Fault α :=
  match x s with
  | .ok a _ => .ok a
  | .error e _ => .error e

/-- What is told of both ends of an action is told of its answer and of the state after it. -/
theorem Action.Ends.told {σ α : Type} {x : Action σ α} {s : σ} {P : Except Fault α → σ → Prop}
    (h : x.Ends s (fun a t => P (.ok a) t) fun e t => P (.error e) t) :
    P (x.answer s) (x.after s) := by
  unfold Action.Ends at h
  unfold Action.answer Action.after
  cases hx : x s <;> rw [hx] at h <;> exact h

namespace Session

open SymbolTrees.Server (Outcome)

/-- What can happen to a session. -/
inductive Event where
  | openCalls (item : CallItem) (direction : Direction)
  | startCalls (uri : Text) (line character : Int) (direction : Direction)
  /-- An outline from entries that are at hand. -/
  | openOutline (uri : Text) (entries : List Node.Entry)
  /-- An outline from the answer of a server. -/
  | showOutline (uri : Text) (answer : Json)
  | startOutline (uri : Text)
  | expand (tree : TreeId) (node : NodeRef)
  | collapse (tree : TreeId) (node : NodeRef)
  | toggle (tree : TreeId) (node : NodeRef)
  | focus (tree : TreeId) (node : NodeRef)
  | switchDirection (tree : TreeId)
  | jump (tree : TreeId) (node : NodeRef)
  | details (tree : TreeId) (node : NodeRef)
  | render (tree : TreeId)
  | close (handle : Int)
  | setHidden (handle : Int) (hidden : Bool)
  | toggleHidden (kind : Text)
  | pump
  /-- The request that was sent as number `request`, from zero, has an outcome. -/
  | settle (request : Nat) (outcome : Outcome)
  /-- The clock is at `now`. -/
  | tick (now : Number)

/-- What an event answers to whoever caused it. -/
inductive Report where
  | nothing
  | token (token : Option Token)
  | tree (tree : Option TreeId)
  | location (location : Location)
  | lines (lines : List Text)
  | view (view : View)
  | done (done : Bool)
  | resolutions (resolutions : List Resolution)

/-- What an event makes of a session. -/
def Event.act : Event → SessionM Report
  | .openCalls item direction => return .tree (← Session.openCalls item direction)
  | .startCalls uri line character direction =>
    return .token (← askItems uri line character direction)
  | .openOutline uri entries => return .tree (← Session.openOutline uri (Node.outline uri entries))
  | .showOutline uri answer =>
    return .tree (← Session.openOutline uri (Node.outlineOfJson uri answer))
  | .startOutline uri => return .token (← askOutline uri)
  | .expand id ref => return .token (← Session.expand id ref)
  | .collapse id ref => do
    Session.collapse id ref
    return .nothing
  | .toggle id ref => return .token (← Session.toggle id ref)
  | .focus id ref => return .tree (← Session.focus id ref)
  | .switchDirection id => return .token (← Session.switchDirection id)
  | .jump id ref => return .location (← Session.jump id ref)
  | .details id ref => return .lines (← Session.details id ref)
  | .render id => return .view (← Session.render id)
  | .close handle => return .done (← Session.close handle)
  | .setHidden handle hidden => return .tree (← Session.setHidden handle hidden)
  | .toggleHidden kind => return .tree (← Session.toggleHidden kind)
  | .pump => return .resolutions (← Session.pump)
  | .settle request outcome => return .done (← Session.settle request outcome)
  | .tick now => do
    modify fun s => { s with now := now }
    return .nothing

/-- The session after an event, whether it failed or not. -/
def step (s : Session) (event : Event) : Session := event.act.after s

/-- The session after a run. -/
def steps (s : Session) (events : List Event) : Session := events.foldl step s

@[simp] theorem steps_nil (s : Session) : s.steps [] = s := rfl

@[simp] theorem steps_cons (s : Session) (event : Event) (events : List Event) :
    s.steps (event :: events) = (s.step event).steps events := rfl

theorem steps_append (s : Session) (first second : List Event) :
    s.steps (first ++ second) = (s.steps first).steps second := List.foldl_append

theorem steps_concat (s : Session) (events : List Event) (event : Event) :
    s.steps (events ++ [event]) = (s.steps events).step event := steps_append s events [event]

end Session

end SymbolTrees
