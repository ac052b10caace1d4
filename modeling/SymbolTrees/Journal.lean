import SymbolTrees.Text.Basic

/-!
What is told to the user and what is only written down.
-/

namespace SymbolTrees

/-- How urgent a notification is. -/
inductive Urgency where
  | info
  | warning
  | error
  | other (name : Text)
deriving Repr, DecidableEq

namespace Urgency

def text : Urgency → Text
  | info => "info"
  | warning => "warning"
  | error => "error"
  | other name => name

def ofText (s : Text) : Urgency :=
  if s = "info" then info
  else if s = "warning" then warning
  else if s = "error" then error
  else other s

end Urgency

/-- The levels of the log. -/
inductive Level where
  | debug
  | info
  | warning
  | error
deriving Repr, DecidableEq

namespace Level

def text : Level → String
  | debug => "DEBUG"
  | info => "INFO"
  | warning => "WARNING"
  | error => "ERROR"

/-- Whether a record is about something that went wrong. -/
def isAlarm : Level → Bool
  | warning | error => true
  | _ => false

end Level

/-- The level at which a notification is logged. -/
def Urgency.level : Urgency → Level
  | warning => .warning
  | error => .error
  | _ => .info

structure Note where
  urgency : Urgency
  message : Text
deriving Repr, DecidableEq

structure Record where
  level : Level
  message : Text
deriving Repr, DecidableEq

/-- The notifications and the log, each in order of time. -/
structure Journal where
  notes : List Note
  log : List Record
deriving Repr, DecidableEq

namespace Journal

def empty : Journal := ⟨[], []⟩

def write (j : Journal) (level : Level) (message : Text) : Journal :=
  { j with log := j.log ++ [⟨level, message⟩] }

/-- A notification is logged too. -/
def notify (j : Journal) (urgency : Urgency) (message : Text) : Journal :=
  let told : Journal := { j with notes := j.notes ++ [⟨urgency, message⟩] }
  told.write urgency.level message

end Journal

end SymbolTrees
