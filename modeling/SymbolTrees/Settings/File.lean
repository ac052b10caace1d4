import SymbolTrees.CommandLine.Folder
import SymbolTrees.Json.Reader
import SymbolTrees.Json.Writer
import SymbolTrees.Settings.Basic
import SymbolTrees.Text.Utf8
import SymbolTrees.View.Icons

/-!
The file with the settings: a JSON object, in which other programs may keep fields of their own. A
file that is missing or holds anything else counts as an empty object, and a field of the wrong type
as missing.
-/

namespace SymbolTrees

namespace Settings

/-- The fields of the object that the bytes of a file write. -/
def stored (content : Option (List Nat)) : Json.Fields :=
  match (content.bind Text.Utf8.decode?).bind fun text => Json.ofText? (Text.ofChars text) with
  | some (.obj fields) => fields
  | _ => []

/-- A field that is a truth value. -/
def toggle (fields : Json.Fields) (name : Text) (otherwise : Bool) : Bool :=
  match fields.get? name with
  | some (.bool b) => b
  | _ => otherwise

/-- A time in seconds that is not zero or less. -/
def timeoutOf (fields : Json.Fields) : Except Malformed Number :=
  match fields.get? "request_timeout" with
  | some (.num (.int n)) =>
    if n ≤ 0 then pure defaultTimeout else .float <$> Number.floatOfInt n
  | some (.num (.float x)) => pure (if x ≤ 0 then defaultTimeout else .float x)
  | _ => pure defaultTimeout

/-- The settings that the fields make. -/
def ofFields (fields : Json.Fields) : Except Malformed Settings :=
  return {
    icons := IconSet.normalName ((fields.get? "icons").bind Json.text?)
    guides := toggle fields "indent_guides" true
    resolveSymbols := toggle fields "resolve_symbols" false
    timeout := ← timeoutOf fields
    autoFollow := toggle fields "auto_follow" true }

def load (content : Option (List Nat)) : Except Malformed Settings := ofFields (stored content)

/-- The fields with the settings in them; all other fields stay. -/
def putInto (settings : Settings) (fields : Json.Fields) : Except Malformed Json.Fields := do
  let timeout ← settings.timeout.toFloat
  pure (((((fields.put "icons" (.str (IconSet.normalName (some settings.icons)))).put
    "indent_guides" (.bool settings.guides)).put
    "resolve_symbols" (.bool settings.resolveSymbols)).put
    "request_timeout" (.num (.float timeout))).put
    "auto_follow" (.bool settings.autoFollow))

end Settings

/-- The file: its bytes, if it is there, and whether it can be written. -/
structure SettingsFile where
  content : Option (List Nat)
  writable : Bool
deriving Repr, DecidableEq

namespace SettingsFile

def text (file : SettingsFile) : Option String :=
  file.content.map fun bytes => String.ofList (Text.Utf8.decode bytes)

/-- Writes a value and tells whether that was possible. -/
def save (file : SettingsFile) (value : Json) : Bool × SettingsFile :=
  if file.writable then
    let text := value.toText ++ "\n"
    (true, { file with content := some (text.toList.flatMap Text.Utf8.encode) })
  else (false, file)

/-- Writes settings over those in the file. -/
def saveSettings (file : SettingsFile) (settings : Settings) :
    Except Malformed (Bool × SettingsFile) := do
  let fields ← settings.putInto (Settings.stored file.content)
  pure (file.save (.obj fields))

open SymbolTrees.CommandLine (Folder)

/-- The file at a spot of a folder. It can be written if nothing is in its way and the system has
no other objection. -/
def within (folder : Folder) (spot : Folder.Spot) (allowed : Bool) : SettingsFile :=
  ⟨folder.read spot, allowed && folder.admits folder.here.names spot.names⟩

/-- What a folder is after the file at a spot was saved: the one it was, unless that was possible. -/
def keepIn (folder : Folder) (spot : Folder.Spot) : Bool × SettingsFile → Folder
  | (true, ⟨some bytes, _⟩) => folder.put spot bytes
  | _ => folder

/-- Writes settings over those in the file at a spot of a folder. -/
def saveWithin (folder : Folder) (spot : Folder.Spot) (allowed : Bool) (settings : Settings) :
    Except Malformed (Bool × Folder) := do
  let saved ← (within folder spot allowed).saveSettings settings
  pure (saved.1, keepIn folder spot saved)

end SettingsFile

end SymbolTrees
