import SymbolTrees.Text.Split

/-!
Which hosts a URI may name: brackets stand in pairs and hold an address, and no character turns
into a delimiter when the host is normalised.
-/

namespace SymbolTrees.Uri.Host

open SymbolTrees.Text (pieces cut)

def isHexDigit (c : Char) : Bool :=
  c.isDigit || ('a' ≤ c && c ≤ 'f') || ('A' ≤ c && c ≤ 'F')

/-- A group of an address: one to four hexadecimal digits. -/
def isGroup (s : List Char) : Bool := s.all isHexDigit && 1 ≤ s.length && s.length ≤ 4

/-- A byte in decimal digits without leading zeros. -/
def isByte (s : List Char) : Bool :=
  s.all Char.isDigit && 1 ≤ s.length && s.length ≤ 3 && (s == ['0'] || s.head? != some '0') &&
    s.foldl (fun n c => 10 * n + (c.toNat - '0'.toNat)) 0 ≤ 255

/-- Four bytes with points between them stand for two groups. -/
def isDotted (s : List Char) : Bool :=
  let bytes := pieces '.' s
  bytes.length == 4 && bytes.all isByte

/-- The groups with a last one in dotted form replaced by two; none if that form is wrong. -/
def plainGroups? (groups : List (List Char)) : Option (List (List Char)) :=
  match groups.getLast? with
  | some last =>
    if last.contains '.' then
      if isDotted last then some (groups.dropLast ++ [['0'], ['0']]) else none
    else some groups
  | none => none

/-- The groups at one side of a gap; the side may be missing, which leaves one empty piece. -/
def side (groups : List (List Char)) : List (List Char) := if groups == [[]] then [] else groups

/-- Eight groups, or fewer around one gap. -/
def areGroups (groups : List (List Char)) : Bool :=
  let gaps := ((groups.drop 1).dropLast.filter (·.isEmpty)).length
  if gaps == 0 then groups.length == 8 && groups.all isGroup
  else if gaps == 1 then
    let before := groups.take (1 + ((groups.drop 1).takeWhile (!·.isEmpty)).length)
    let after := groups.drop (before.length + 1)
    let all := side before ++ side after
    all.length ≤ 7 && all.all isGroup
  else false

/-- An address of eight groups, with the name of a zone after a percent sign if there is one. -/
def isAddress (s : List Char) : Bool :=
  let (address, zone) := cut '%' s
  let groups := pieces ':' address
  (!s.contains '%' || (!zone.isEmpty && !zone.contains '%')) && 3 ≤ groups.length &&
    ((plainGroups? groups).map areGroups).getD false

/-- An address of a later version: a hexadecimal version number, a point and more. -/
def isVersioned (s : List Char) : Bool :=
  match s with
  | 'v' :: rest =>
    let (version, more) := cut '.' rest
    version.all isHexDigit && !version.isEmpty && !more.isEmpty
  | _ => false

/-- The characters whose normal form holds a slash, a question mark, a number sign, an at sign or a
colon. -/
def delimiterForms : List Nat :=
  [0x2047, 0x2048, 0x2049, 0x2100, 0x2101, 0x2105, 0x2106, 0x2A74, 0xFE13, 0xFE16, 0xFE55, 0xFE56,
   0xFE5F, 0xFE6B, 0xFF03, 0xFF0F, 0xFF1A, 0xFF1F, 0xFF20]

/-- An address of either kind. -/
def isLiteral (s : List Char) : Bool := if s.head? == some 'v' then isVersioned s else isAddress s

/-- The host without the name of a user, which ends at the last at sign. -/
def withoutUser (host : List Char) : List Char := ((pieces '@' host).getLast?).getD []

/-- A server with a bracket in its host: an address in brackets from the start on, perhaps with a
port after it. Where all brackets belong to the user, what stands before the port is an address. -/
def isServer (s : List Char) : Bool :=
  let (before, inside) := cut '[' s
  let (address, port) := cut ']' inside
  if s.contains '[' then
    before.isEmpty && (port.isEmpty || port.head? == some ':') && isLiteral address
  else isLiteral (cut ':' s).1

/-- Whether a URI may name the host. -/
def isWellFormed (host : List Char) : Bool :=
  let brackets := match host.contains '[', host.contains ']' with
    | false, false => true
    | true, true => isServer (withoutUser host)
    | _, _ => false
  brackets && !host.any fun c => delimiterForms.contains c.toNat

end SymbolTrees.Uri.Host
