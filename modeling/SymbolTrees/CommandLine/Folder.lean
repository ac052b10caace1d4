import SymbolTrees.Path

/-!
Files below a directory, as a program finds them.
-/

namespace SymbolTrees.CommandLine

/-- The directory in which a program runs, with the files below it by their names from there. -/
structure Folder where
  here : Path
  files : List (List Text × List Nat)
deriving Repr, DecidableEq

/-- What is at the end of a path. -/
inductive Found where
  | nothing
  | directory
  | file (bytes : List Nat)
  /-- The path, or a name on it, is longer than any can be. -/
  | tooLong
deriving Repr, DecidableEq

/-- The most bytes that a name can have. -/
def maxNameBytes : Nat := 255

/-- The most bytes that a path can have. -/
def maxPathBytes : Nat := 4095

/-- The bytes of a name, by which files are told apart; none where no file can have the name. -/
def bytesOf (name : Text) : List Nat := (Path.nameBytes? name).getD []

def Found.bytes? : Found → Option (List Nat)
  | file bytes => some bytes
  | _ => none

namespace Folder

/-- The files by their names from the root. -/
def fromRoot (folder : Folder) : List (List (List Nat) × List Nat) :=
  folder.files.map fun (names, bytes) => ((folder.here.names ++ names).map bytesOf, bytes)

/-- What has these names from the root. A directory is where files are, or on the way to the place
where the program runs. -/
def entry (folder : Folder) (names : List Text) : Found :=
  let names := names.map bytesOf
  match folder.fromRoot.find? fun file => file.1 = names with
  | some (_, bytes) => .file bytes
  | none =>
    if names.isPrefixOf (folder.here.names.map bytesOf) ||
        folder.fromRoot.any fun file => names.isPrefixOf file.1 then .directory
    else .nothing

/-- Goes on from a directory, name by name; only a directory leads further, and only there it
matters how long the next name is. -/
def follow (folder : Folder) (names : List Text) : List Text → Found
  | [] => folder.entry names
  | name :: rest =>
    match folder.entry names with
    | .directory =>
      if maxNameBytes < (bytesOf name).length then .tooLong
      else folder.follow (Path.walk names name) rest
    | _ => .nothing

/-- What is at the end of a path. -/
def find (folder : Folder) (path : Path) : Found :=
  if (path.names.findSome? Path.objection?).isSome then .nothing
  else if maxPathBytes < (bytesOf path.text).length then .tooLong
  else folder.follow (if path.anchor = .here then folder.here.names else []) path.names

/-- Where a program keeps a file of its own: names that lead down to it from the directory, and that
files can have. -/
structure Spot where
  names : List Text
  fit : ∀ name ∈ names, name ≠ Path.up ∧ Path.objection? name = none

/-- The bytes of the file at a spot, if there is one. -/
def read (folder : Folder) (spot : Spot) : Option (List Nat) :=
  (folder.follow folder.here.names spot.names).bytes?

/-- Goes on from a directory, name by name, to where a file is to be written. Directories that are
missing are made, but no file is taken for a directory, and no directory is written over. -/
def admits (folder : Folder) (names : List Text) : List Text → Bool
  | [] => folder.entry names ≠ .directory
  | name :: rest =>
    match folder.entry names with
    | .directory | .nothing =>
      (bytesOf name).length ≤ maxNameBytes && folder.admits (Path.walk names name) rest
    | _ => false

/-- The folder with a file of these bytes at a spot; the one that was there is written over. -/
def put (folder : Folder) (spot : Spot) (bytes : List Nat) : Folder :=
  { folder with files :=
      folder.files.filter (fun file => file.1.map bytesOf ≠ spot.names.map bytesOf) ++
        [(spot.names, bytes)] }

end Folder

end SymbolTrees.CommandLine
