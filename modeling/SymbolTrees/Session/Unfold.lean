import SymbolTrees.Session.Operations

/-!
Unfolding a tree to a depth, level by level.
-/

namespace SymbolTrees.Session

/-- When the clock is read while a tree is opened and unfolded. -/
inductive Moment where
  | opening
  /-- Before the node on a line is expanded, in the round of a level. -/
  | expanding (level : Nat) (line : Int)
  /-- Before the session is pumped, with some rounds left, to settle a level. -/
  | pumping (level rounds : Nat)

/-- What the clock shows at a moment, given what it showed before. -/
abbrev Clock := Moment → Number → Number

/-- The clock stands still. -/
def Clock.still : Clock := fun _ now => now

/-- What the clock shows at each moment, in seconds. -/
abbrev Readings := Moment → Float

def Readings.clock (readings : Readings) : Clock := fun moment _ => .float (readings moment)

/-- The clock is read at a moment. -/
def readClock (clock : Clock) (moment : Moment) : SessionM Unit :=
  modify fun s => { s with now := clock moment s.now }

/-- How often a session is pumped to settle. -/
def maxRounds : Nat := 100

/-- Pumps until no request is under way, up to a number of times. -/
def pumpUntilSettledBy (clock : Clock) (level : Nat) : Nat → SessionM Unit
  | 0 => pure ()
  | n + 1 => do
    readClock clock (.pumping level n)
    let _ ← pump
    if !(← get).pending.isEmpty then pumpUntilSettledBy clock level n

/-- Pumps without time going by. -/
def pumpUntilSettled (n : Nat) : SessionM Unit := pumpUntilSettledBy .still 0 n

/-- Expands the nodes of one level among those on display. -/
def unfoldLevel (clock : Clock) (id : TreeId) (level : Nat) : SessionM Unit := do
  ((← get).tree id).lineMap.forM expandOn
  pumpUntilSettledBy clock level maxRounds
where
  expandOn (entry : Int × Place) : SessionM Unit := do
    let ref : NodeRef := ⟨id, entry.2⟩
    let node := (← get).node ref
    if node.depth = level && !node.expanded then
      readClock clock (.expanding level entry.1)
      let _ ← expand id ref

/-- Expands a number of levels from a level on. -/
def unfoldFrom (clock : Clock) (id : TreeId) : Nat → Nat → SessionM Unit
  | _, 0 => pure ()
  | level, n + 1 => do
    unfoldLevel clock id level
    unfoldFrom clock id (level + 1) n

/-- Expands every node on display above a depth, level by level. -/
def unfoldToBy (clock : Clock) (id : TreeId) (depth : Int) : SessionM Unit :=
  unfoldFrom clock id 1 (depth - 1).toNat

/-- Unfolds without time going by. -/
def unfoldTo (id : TreeId) (depth : Int) : SessionM Unit := unfoldToBy .still id depth

/-- A tree as text, drawn anew. -/
def renderText (id : TreeId) : SessionM Text := do
  let _ ← render id
  let s ← get
  pure (s.buffers.buffer (s.tree id).handle).text

end SymbolTrees.Session
