import SymbolTrees.Text.Integer
import SymbolTrees.Text.Quoted
import SymbolTrees.Text.Split

/-!
Options and operands on a command line. Options are named with one or two dashes, may be shortened
as long as that names only one, and take a value from the next argument or after an equals sign.
After `--` no argument is an option.
-/

namespace SymbolTrees.CommandLine

open SymbolTrees.Text (quoted)

/-- Some texts in a row, with commas between them. -/
def listed (texts : List Text) : Text := List.intercalate (", " : Text) texts

structure OptionSpec where
  /-- The ways to write it. -/
  names : List Text
  takesValue : Bool
  /-- What is wrong with a value, if anything is. -/
  objection : Text → Option Text

/-- How an option is called in messages. -/
def OptionSpec.title (o : OptionSpec) : Text := List.intercalate ("/" : Text) o.names

/-- What an option is known by: its last, longest name. -/
def OptionSpec.key (o : OptionSpec) : Text := o.names.getLast?.getD []

/-- The one operand of a command line. -/
inductive Operand where
  | value (name : Text)
  /-- One of some commands, which all arguments after it belong to. -/
  | command (name : Text) (choices : List Text)
deriving Repr, DecidableEq

def Operand.name : Operand → Text
  | value name => name
  | command name _ => name

/-- What a command line may hold. -/
structure Grammar where
  options : List OptionSpec
  operand : Operand

/-- Why reading a command line stops. -/
inductive Stop where
  | help
  | misuse (message : Text)
deriving Repr, DecidableEq

/-- A value written with an option: after an equals sign, or right after a single letter. -/
structure Attached where
  /-- Whether the option is named by a letter, after which more letters may follow. -/
  byLetter : Bool
  text : Text
deriving Repr, DecidableEq

/-- What an argument looks like. -/
inductive Mark where
  | separator
  | plain
  | unknown
  | option (spec : OptionSpec) (attached : Option Attached)

namespace Grammar

/-- The names of all options, in order. -/
def names (g : Grammar) : List (Text × OptionSpec) :=
  g.options.flatMap fun o => o.names.map (·, o)

def named? (g : Grammar) (name : Text) : Option OptionSpec :=
  (g.names.find? fun entry => entry.1 = name).map (·.2)

def startsWith (s start : Text) : Bool := start.isPrefixOf s

/-- An argument cut at its first equals sign. -/
def splitSign (arg : Text) : Text × Option Attached :=
  let (name, value) := Text.cut (.char '=') arg
  if arg.contains (.char '=') then (name, some ⟨!startsWith arg "--", value⟩) else (arg, none)

/-- The options that a shortened name may stand for. -/
def candidates (g : Grammar) (arg : Text) : List (Text × OptionSpec × Option Attached) :=
  if startsWith arg "--" then
    let (name, attached) := splitSign arg
    g.names.filterMap fun (n, o) => if startsWith n name then some (n, o, attached) else none
  else
    let letter := arg.take 2
    let rest := arg.drop 2
    g.names.filterMap fun (n, o) =>
      if n = letter then some (n, o, some ⟨true, rest⟩)
      else if startsWith n arg then some (n, o, none)
      else none

/-- Digits of any script. -/
def areDigits (s : Text) : Bool :=
  !s.isEmpty && s.all fun g => (Text.Integer.digit? g.toChar).isSome

/-- A minus sign and a number, perhaps with a point in it. -/
def isNegativeNumber (arg : Text) : Bool :=
  match arg with
  | .char '-' :: rest =>
    let rest := if rest.getLast? == some (.char '\n') then rest.dropLast else rest
    let (whole, fraction) := Text.cut (.char '.') rest
    areDigits rest ||
      (rest.contains (.char '.') && (whole.isEmpty || areDigits whole) && areDigits fraction)
  | _ => false

def mark (g : Grammar) (arg : Text) : Except Stop Mark :=
  if !startsWith arg "-" || arg = "-" then pure .plain
  else
    match g.named? arg, splitSign arg with
    | some o, _ => pure (.option o none)
    | none, (name, attached) =>
      match attached.bind fun _ => g.named? name with
      | some o => pure (.option o attached)
      | none =>
        match g.candidates arg with
        | [(_, o, attached)] => pure (.option o attached)
        | [] =>
          pure (if isNegativeNumber arg || arg.contains (.char ' ') then .plain else .unknown)
        | several =>
          let matching := listed (several.map (·.1))
          throw (.misuse ("ambiguous option: " ++ arg ++ " could match " ++ matching))

/-- The marks of the arguments; after the separator all are plain. -/
def marks (g : Grammar) : List Text → Except Stop (List (Text × Mark))
  | [] => pure []
  | arg :: rest =>
    if arg = "--" then pure ((arg, .separator) :: rest.map (·, .plain))
    else do
      let m ← g.mark arg
      return (arg, m) :: (← g.marks rest)

end Grammar

/-- What a command line holds. -/
structure Parsed where
  /-- The options in order, with their values. -/
  options : List (Text × Option Text)
  operand : Option Text
  /-- The arguments that belong to the command. -/
  rest : List Text
  /-- The arguments that mean nothing. -/
  extras : List Text
deriving Repr, DecidableEq

namespace Parsed

def has (p : Parsed) (key : Text) : Bool := p.options.any fun entry => entry.1 = key

/-- How an option is given, with a value or without; of several the last counts. -/
def last? (p : Parsed) (key : Text) : Option (Option Text) :=
  (p.options.reverse.find? fun entry => entry.1 = key).map (·.2)

/-- The value of an option. -/
def value? (p : Parsed) (key : Text) : Option Text := (p.last? key).join

def withExtra (p : Parsed) (arg : Text) : Parsed := { p with extras := p.extras ++ [arg] }

end Parsed

/-- Why an option or operand cannot be used as it is written. -/
def objectTo (title problem : Text) : Stop := .misuse ("argument " ++ title ++ ": " ++ problem)

/-- An option with its value, if that raises no objection. -/
def Parsed.withValue (p : Parsed) (o : OptionSpec) (value : Text) : Except Stop Parsed :=
  match o.objection value with
  | some problem => throw (objectTo o.title problem)
  | none => pure { p with options := p.options ++ [(o.key, some value)] }

/-- The option that asks for help. -/
def help : OptionSpec := ⟨["-h", "--help"], false, fun _ => none⟩

/-- An option without a value. -/
def Parsed.withFlag (p : Parsed) (o : OptionSpec) : Except Stop Parsed :=
  if o.key = help.key then throw .help
  else pure { p with options := p.options ++ [(o.key, none)] }

/-- An option with the value written with it. The separator is no value: the option is then given
without one. -/
def Parsed.withAttached (p : Parsed) (o : OptionSpec) (value : Text) : Except Stop Parsed :=
  if value = "--" then pure { p with options := p.options ++ [(o.key, none)] }
  else p.withValue o value

/-- A value written with an option that takes none. -/
def refuseValue (o : OptionSpec) (value : Text) : Stop :=
  objectTo o.title s!"ignored explicit argument {quoted value}"

namespace Grammar

/-- The option and those named by the letters after it. -/
def letters (g : Grammar) (o : OptionSpec) : Text → Except Stop (List OptionSpec)
  | [] => pure [o]
  | c :: rest =>
    match g.named? [.char '-', c] with
    | some next => return o :: (← g.letters next rest)
    | none => throw (refuseValue o (c :: rest))

/-- The options without a value in one argument. -/
def flags (g : Grammar) (o : OptionSpec) (attached : Attached) : Except Stop (List OptionSpec) :=
  if attached.byLetter && attached.text != [] then g.letters o attached.text
  else throw (refuseValue o attached.text)

/-- Takes the operand; what follows a command is left to it. -/
def takeOperand (g : Grammar) (p : Parsed) (arg : Text) (rest : List Text) :
    Except Stop Parsed :=
  match g.operand with
  | .value _ => pure { p with operand := some arg }
  | .command name choices =>
    if choices.contains arg then pure { p with operand := some arg, rest := rest }
    else
      let known := listed (choices.map fun choice => quoted choice)
      throw (objectTo name ("invalid choice: " ++ quoted arg ++ " (choose from " ++ known ++ ")"))

/-- Whether all arguments after the operand belong to it. -/
def isCommand (g : Grammar) : Bool :=
  match g.operand with
  | .command .. => true
  | .value _ => false

/-- The arguments one after the other. -/
def consume (g : Grammar) (p : Parsed) : List (Text × Mark) → Except Stop Parsed
  | [] => pure p
  | (arg, .unknown) :: rest => g.consume (p.withExtra arg) rest
  | (_, .option o (some attached)) :: rest => do
    if o.takesValue then g.consume (← p.withAttached o attached.text) rest
    else g.consume (← (← g.flags o attached).foldlM Parsed.withFlag p) rest
  | (_, .option o none) :: rest => do
    if o.takesValue then
      match rest with
      | (value, .plain) :: rest => g.consume (← p.withValue o value) rest
      | _ => throw (objectTo o.title "expected one argument")
    else g.consume (← p.withFlag o) rest
  | (arg, .separator) :: (next, m) :: rest => do
    if p.operand.isSome then g.consume (p.withExtra arg) ((next, m) :: rest)
    else if g.isCommand then g.takeOperand p arg (next :: rest.map (·.1))
    else g.consume (← g.takeOperand p next []) rest
  | [(arg, .separator)] => pure (p.withExtra arg)
  | (arg, .plain) :: rest => do
    if p.operand.isSome then g.consume (p.withExtra arg) rest
    else if g.isCommand then g.takeOperand p arg (rest.map (·.1))
    else
      let p ← g.takeOperand p arg []
      match rest with
      | (_, .separator) :: rest => g.consume p rest
      | rest => g.consume p rest

/-- Reads a command line. -/
def parse (g : Grammar) (args : List Text) : Except Stop Parsed := do
  let p ← g.consume ⟨[], none, [], []⟩ (← g.marks args)
  if p.operand.isNone then
    throw (.misuse ("the following arguments are required: " ++ g.operand.name))
  pure p

end Grammar

end SymbolTrees.CommandLine
