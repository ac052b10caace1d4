import SymbolTrees.Symbol.CallItem

/-!
What a tree shows: the callers of a function, the functions it calls, or the outline of a document.
-/

namespace SymbolTrees

/-- The two kinds of trees; a session remembers the most recent tree of each. -/
inductive TreeKind where
  | calls
  | outline
deriving Repr, DecidableEq, Inhabited

namespace TreeKind

def text : TreeKind → String
  | calls => "calls"
  | outline => "outline"

def ofText? (s : Text) : Option TreeKind :=
  if s = "calls" then some calls else if s = "outline" then some outline else none

end TreeKind

/-- A direction is given by its name; a name that is none of the three is kept to be refused. -/
inductive Direction where
  | calls (direction : CallDirection)
  | outline
  | unknown (name : Text)
deriving Repr, DecidableEq, Inhabited

namespace Direction

def ofText (s : Text) : Direction :=
  if s = "incoming" then calls .incoming
  else if s = "outgoing" then calls .outgoing
  else if s = "outline" then outline
  else unknown s

def text : Direction → Text
  | calls d => d.text
  | outline => "outline"
  | unknown name => name

def kind? : Direction → Option TreeKind
  | calls _ => some .calls
  | outline => some .outline
  | unknown _ => none

def calls? : Direction → Option CallDirection
  | calls d => some d
  | _ => none

end Direction

end SymbolTrees
