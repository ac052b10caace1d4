import SymbolTrees.Path
import SymbolTrees.Uri.Escape
import SymbolTrees.Uri.Host

/-!
URIs of documents, and the paths of files that they name.
-/

namespace SymbolTrees

open SymbolTrees.Text

/-- The parts of a URI that say where its document is. -/
structure Uri where
  scheme : Text
  host : Text
  path : Text
deriving Repr, DecidableEq, Inhabited

namespace Uri

/-- Tabs and line ends, which may stand anywhere and mean nothing. -/
def isLayout (c : Char) : Bool := c == '\t' || c == '\r' || c == '\n'

/-- The text without control characters and blanks in front, and without tabs and line ends. -/
def clean (s : Text) : Text :=
  (s.dropWhile (·.code ≤ 0x20)).filter fun g => !isLayout g.toChar

def isSchemeChar (c : Char) : Bool := c.isAlphanum || c == '+' || c == '-' || c == '.'

/-- A scheme starts with a letter. -/
def isScheme (s : List Char) : Bool := s.all isSchemeChar && (s.head?.map Char.isAlpha).getD false

/-- The scheme in lower case and the text after its colon. -/
def splitScheme (s : Text) : Text × Text :=
  let (name, rest) := cut (.char ':') s
  if s.contains (.char ':') && isScheme (chars name) then
    (ofChars ((chars name).map Char.toLower), rest)
  else ([], s)

def endsHost (c : Char) : Bool := c == '/' || c == '?' || c == '#'

/-- The host after two slashes, and what follows it. -/
def splitHost : Text → Text × Text
  | .char '/' :: .char '/' :: rest => rest.span fun g => !endsHost g.toChar
  | s => ([], s)

/-- The parts of a URI; what follows the first number sign or question mark is left out. -/
def ofText (s : Text) : Except Malformed Uri :=
  let (scheme, rest) := splitScheme (clean s)
  let (host, rest) := splitHost rest
  if Host.isWellFormed (chars host) then
    pure ⟨scheme, host, (cut (.char '?') (cut (.char '#') rest).1).1⟩
  else throw .badUri

/-- The path of the file that a URI names; only URIs of files name one. -/
def filePath? (uri : Text) : Except Malformed (Option Path) := do
  let parts ← ofText uri
  pure (if parts.scheme = "file" then some (Path.ofText (Escape.decode parts.path)) else none)

/-- The URI of a file; a relative path is read in the directory `here`. -/
def ofPath (here path : Path) : Except Malformed Text := do
  let p ← path.resolve here
  match chars? p.text with
  | some s => pure ("file://" ++ ofChars (Escape.encode s))
  | none => throw .loneHalf

/-- The name of the document that a URI names. -/
def documentName (uri : Text) : Except Malformed Text := do
  match ← filePath? uri with
  | some path => pure path.fileName
  | none =>
    let name := (Path.ofText uri).fileName
    pure (if name = [] then uri else name)

end Uri

end SymbolTrees
