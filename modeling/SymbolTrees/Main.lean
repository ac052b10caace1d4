import SymbolTrees.CommandLine.Program

/-!
The program on the files of the machine. It shows what `CommandLine.run` answers and decides nothing
itself.
-/

namespace SymbolTrees.CommandLine

/-- What is at the end of a path on this machine. -/
def foundAt (path : Text) : IO Found := do
  try
    let bytes ← IO.FS.readBinFile path.toString
    pure (.file (bytes.toList.map UInt8.toNat))
  catch
    | .inappropriateType .. => pure .directory
    | .invalidArgument .. => pure .tooLong
    | _ => pure .nothing

/-- The directory below which programs keep their settings. -/
def settingsFolder : IO String := do
  match ← IO.getEnv "XDG_CONFIG_HOME" with
  | some folder => pure folder
  | none => return (← IO.getEnv "HOME").getD "" ++ "/.config"

/-- What the program finds on this machine; of all files only the one to draw is looked at. -/
def surroundings (args : List Text) : IO Surroundings := do
  let here := (← IO.currentDir).toString
  let found ← match Arguments.parse args with
    | .ok a => foundAt a.file.text
    | .error _ => pure .nothing
  let settings ← foundAt ((← settingsFolder) ++ "/calltree/config.json")
  pure ⟨.ofText here, fun _ => found, settings.bytes?⟩

/-- Prints how a run ended and gives its exit code. -/
def Outcome.report (outcome : Outcome) : IO UInt32 := do
  IO.eprint outcome.logText.toString
  match outcome.ending with
  | .text output =>
    IO.print output.toString
    pure 0
  | .help =>
    IO.print usage
    pure 0
  | .misuse program message =>
    IO.eprintln (misuseLine program message).toString
    pure 2
  | .problem message =>
    IO.eprintln message.toString
    pure 1
  | .directory path =>
    IO.eprintln s!"Is a directory: {path.toString}"
    pure 1
  | .tooLong path =>
    IO.eprintln s!"File name too long: {path.toString}"
    pure 1
  | .fault fault =>
    IO.eprintln fault.message.toString
    pure 1

end SymbolTrees.CommandLine

open SymbolTrees.CommandLine in
def main (args : List String) : IO UInt32 := do
  let args := args.map SymbolTrees.Text.ofString
  (run (← surroundings args) args).report
