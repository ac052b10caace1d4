import SymbolTrees.CommandLine.Arguments
import SymbolTrees.CommandLine.Folder
import SymbolTrees.Session.Unfold
import SymbolTrees.Settings.File

/-!
The program: it draws the outline of a document or a tree of calls from a file with what a server
answered, as text.
-/

namespace SymbolTrees.CommandLine

/-- What the program finds around it. -/
structure Surroundings where
  /-- The directory in which it runs. -/
  here : Path
  find : Path → Found
  /-- The bytes of the file with the settings, if there is one. -/
  settings : Option (List Nat)

/-- How the program ends. -/
inductive Ending where
  | text (output : Text)
  | help
  | misuse (program message : Text)
  | problem (message : Text)
  /-- The path leads to a directory. -/
  | directory (path : Text)
  /-- The path is longer than any can be. -/
  | tooLong (path : Text)
  | fault (fault : Fault)

/-- An ending with what was logged until then. -/
structure Outcome where
  ending : Ending
  log : List Record

/-- The path of the file to read, and how it is called in messages. -/
def Arguments.file (a : Arguments) : Path := .ofText a.task.path

/-- The value in the file. -/
def readFile (s : Surroundings) (path : Path) : Except Ending Json := do
  match s.find path with
  | .nothing => throw (.problem ("Path not found: " ++ path.text))
  | .directory => throw (.directory path.text)
  | .tooLong => throw (.tooLong path.text)
  | .file bytes =>
    match (Text.Utf8.decode? bytes).bind fun text => Json.ofText? (Text.ofChars text) with
    | some value => pure value
    | none => throw (.problem ("Invalid JSON in " ++ path.text))

/-- A reading as a step of the program. -/
def reading {α : Type} (value : Except Malformed α) : Except Ending α :=
  value.mapError fun reason => .fault (.malformed reason)

/-- The settings of the file, overruled by the options. -/
def settingsFor (s : Surroundings) (a : Arguments) : Except Ending Settings := do
  let stored ← reading (Settings.load s.settings)
  pure { stored with
    icons := a.icons.getD stored.icons
    guides := stored.guides && !a.noGuides
    resolveSymbols := stored.resolveSymbols || a.resolveSymbols }

def startSession (readings : Session.Readings) (s : Surroundings) (a : Arguments)
    (settings : Settings) (recording : Json) : Except Ending Session := do
  let root ← reading (((a.root.map Path.ofText).getD s.here).resolve s.here)
  pure (.start (.replay recording) settings root (.float (readings .opening)))

/-- Unfolds a tree and writes it as text. -/
def draw (clock : Session.Clock) (id : TreeId) (depth : Option Int) : SessionM Text := do
  match depth with
  | some depth => Session.unfoldToBy clock id depth
  | none => throw (.malformed .notANumber)
  Session.renderText id

/-- What is left to do once everything is read. -/
def plan (readings : Session.Readings) (s : Surroundings) (a : Arguments) :
    Except Ending (Session × SessionM Text) := do
  let settings ← settingsFor s a
  let path := a.file
  let data ← readFile s path
  match a.task with
  | .outline _ uri depth =>
    if !data matches .arr _ then
      throw (.problem (path.text ++ " must hold a JSON list of document symbols"))
    let session ← startSession readings s a settings (.obj [])
    let uri ← match uri with
      | some uri => pure uri
      | none => reading (Uri.ofPath s.here path)
    pure (session, do
      let id ← Session.openOutline uri (Node.outlineOfJson uri data)
      draw readings.clock id depth)
  | .calls _ outgoing depth =>
    let item ← match data with
      | .obj fields =>
        match Table.get? fields "item" with
        | some (.obj item) => pure item
        | _ => throw (noItem path)
      | _ => throw (noItem path)
    let session ← startSession readings s a settings data
    pure (session, do
      let item ← CallItem.ofFields item
      let direction := if outgoing then CallDirection.outgoing else .incoming
      let id ← Session.openCalls item (.calls direction)
      Session.pumpUntilSettledBy readings.clock 0 Session.maxRounds
      draw readings.clock id depth)
where
  noItem (path : Path) : Ending :=
    .problem (path.text ++ " must hold a recording with an 'item' object")

/-- Runs the program while the clock shows its readings. -/
def runBy (readings : Session.Readings) (s : Surroundings) (args : List Text) : Outcome :=
  match Arguments.parse args with
  | .error .help => ⟨.help, []⟩
  | .error (.misuse program message) => ⟨.misuse program message, []⟩
  | .ok a =>
    match plan readings s a with
    | .error ending => ⟨ending, []⟩
    | .ok (session, act) =>
      let (ending, session) := match act session with
        | .ok text session => (Ending.text (text ++ "\n"), session)
        | .error fault session => (.fault fault, session)
      ⟨ending, session.journal.log.filter fun record => a.verbose || record.level.isAlarm⟩

/-- Runs the program without time going by. -/
def run (s : Surroundings) (args : List Text) : Outcome := runBy (fun _ => 0) s args

/-- A record of the log as a line. -/
def logLine (record : Record) : Text :=
  program ++ ": " ++ record.level.text ++ ": " ++ record.message ++ "\n"

/-- The log of a run as text. -/
def Outcome.logText (outcome : Outcome) : Text := outcome.log.flatMap logLine

/-- How the program says that it was called in a wrong way. -/
def misuseLine (program message : Text) : Text := program ++ ": error: " ++ message

end SymbolTrees.CommandLine
