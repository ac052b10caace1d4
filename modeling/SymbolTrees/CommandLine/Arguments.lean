import SymbolTrees.CommandLine.Options

/-!
The command line of the program: a command with its file, and how the tree is to be drawn.
-/

namespace SymbolTrees.CommandLine

open SymbolTrees.Text (quoted)

def program : Text := "calltree"

/-- What is to be drawn. -/
inductive Task where
  | outline (path : Text) (uri : Option Text) (depth : Option Int)
  | calls (path : Text) (outgoing : Bool) (depth : Option Int)
deriving Repr, DecidableEq

def Task.path : Task → Text
  | outline path _ _ => path
  | calls path _ _ => path

structure Arguments where
  icons : Option Text
  noGuides : Bool
  resolveSymbols : Bool
  root : Option Text
  verbose : Bool
  task : Task
deriving Repr, DecidableEq

def flag (name : Text) : OptionSpec := ⟨[name], false, fun _ => none⟩

def valued (name : Text) : OptionSpec := ⟨[name], true, fun _ => none⟩

/-- What is wrong with a number of levels. -/
def depthObjection (s : Text) : Option Text :=
  match Text.Integer.ofText? s with
  | none => some s!"invalid integer value: {quoted s}"
  | some n => if n ≤ 0 then some "value must be >= 1" else none

def depth : OptionSpec := ⟨["--depth"], true, depthObjection⟩

def mainGrammar : Grammar where
  options := [help, valued "--icons", flag "--no-guides", flag "--resolve-symbols", valued "--root",
    flag "--verbose"]
  operand := .command "command" ["outline", "calls"]

def outlineGrammar : Grammar where
  options := [help, valued "--uri", depth]
  operand := .value "path"

def callsGrammar : Grammar where
  options := [help, flag "--outgoing", depth]
  operand := .value "path"

/-- How the program is called. -/
def usage : String :=
  "usage: calltree [--icons SET] [--no-guides] [--resolve-symbols] [--root DIRECTORY]\n" ++
  "                [--verbose] outline [--uri URI] [--depth LEVELS] FILE\n" ++
  "       calltree [...] calls [--outgoing] [--depth LEVELS] FILE\n"

/-- Why the program does not start: it was asked for help, or it was called in a wrong way. -/
inductive Rejection where
  | help
  | misuse (program message : Text)
deriving Repr, DecidableEq

def Rejection.ofStop (program : Text) : Stop → Rejection
  | .help => help
  | .misuse message => misuse program message

def parseWith (program : Text) (g : Grammar) (args : List Text) : Except Rejection Parsed :=
  (g.parse args).mapError (Rejection.ofStop program)

/-- The number of levels: one unless the option is given, and unknown if it is given without a
value. -/
def depthOf (p : Parsed) : Option Int :=
  match p.last? "--depth" with
  | none => some 1
  | some value => value.bind Text.Integer.ofText?

/-- Reads the command line of the program. -/
def Arguments.parse (args : List Text) : Except Rejection Arguments := do
  let main ← parseWith program mainGrammar args
  let command := main.operand.getD []
  let isOutline := command == "outline"
  let sub ← parseWith (program ++ " " ++ command)
    (if isOutline then outlineGrammar else callsGrammar) main.rest
  let extras := main.extras ++ sub.extras
  if !extras.isEmpty then
    let unread := List.intercalate (" " : Text) extras
    throw (.misuse program ("unrecognized arguments: " ++ unread))
  let path := sub.operand.getD []
  pure {
    icons := (main.last? "--icons").map (·.getD [])
    noGuides := main.has "--no-guides"
    resolveSymbols := main.has "--resolve-symbols"
    root := (main.value? "--root").filter (· ≠ [])
    verbose := main.has "--verbose"
    task :=
      if isOutline then .outline path ((sub.value? "--uri").filter (· ≠ [])) (depthOf sub)
      else .calls path (sub.has "--outgoing") (depthOf sub) }

end SymbolTrees.CommandLine
