import SymbolTrees.Proofs.Session.Impediment
import SymbolTrees.Proofs.Session.Steadfast

/-!
# What is refused is not begun

An operation that is refused, or that is asked of a tree or a node that is not there, finds that out
before it does anything, also where the check stands far down in what it calls. This holds in every
state of a session, with one exception: a node of a tree of calls that stands for no call item is
copied into a new tree before it turns out that it cannot be asked for. No run of operations leads
to such a node, but a tree that is put into the registry from outside can have one.

That a handle is of no open tree is no failure where the tree is to be closed. It is reported, if
the handle can be told.
-/

namespace SymbolTrees.Session

variable {s t : Session} {event : Event} {id : TreeId} {ref : NodeRef} {handle : Int} {α : Type}

/-! ### Operations on nodes -/

theorem Steadfast.untouched {x : SessionM α} (hx : Steadfast x) :
    x.Ends s (fun _ _ => True) s.Untouched :=
  (hx s).mono (fun _ _ h => h) fun _ _ h => h.untouched

/-- What a session is after a node of a tree of calls was copied into a new tree. -/
def copied (s : Session) (id : TreeId) (ref : NodeRef) : Session :=
  let handle := s.registry.nextHandle
  let copy : Tree := ⟨handle, (s.node ref).copy 0, (s.tree id).direction, (s.tree id).uri, false,
    false, [], [], []⟩
  { s with
    registry := { s.registry with nextHandle := handle + 1 }.including copy .calls
    journal := s.journal.write .debug s!"registered {TreeKind.calls.text} tree {handle}" }

end SymbolTrees.Session
