import SymbolTrees.Table
import SymbolTrees.Text.Basic
import SymbolTrees.Text.Blank

/-!
The signs in front of a row: one for opened and one for closed nodes, and icons for kinds of
symbols. The set without icons names the kinds in words.
-/

namespace SymbolTrees

structure IconSet where
  name : String
  expanded : Char
  collapsed : Char
  /-- The icons by the labels of the kinds. -/
  kinds : Table String Char
deriving Repr, DecidableEq, Inhabited

namespace IconSet

/-- The icon of a kind, empty where the set has none. -/
def iconFor (icons : IconSet) (label : String) : String :=
  ((icons.kinds.get? label).map String.singleton).getD ""

def plain : IconSet := ⟨"none", '▼', '▶', []⟩

def codicons : IconSet where
  name := "codicons"
  expanded := '\ueab4'
  collapsed := '\ueab6'
  kinds :=
    [("File", '\ueb60'), ("Module", '\ueb29'), ("Namespace", '\uea8b'), ("Package", '\ueb29'),
     ("Class", '\ueb5b'), ("Method", '\uea8c'), ("Property", '\ueb65'), ("Field", '\ueb5f'),
     ("Constructor", '\uea8c'), ("Enum", '\uea95'), ("Interface", '\ueb61'),
     ("Function", '\uea8c'), ("Variable", '\uea88'), ("Constant", '\ueb5d'),
     ("String", '\ueb8d'), ("Number", '\uea90'), ("Boolean", '\uea8f'), ("Array", '\uea8a'),
     ("Object", '\uea8b'), ("Key", '\uea93'), ("Null", '\uea8f'), ("EnumMember", '\ueb5e'),
     ("Struct", '\uea91'), ("Event", '\uea86'), ("Operator", '\ueb64'),
     ("TypeParameter", '\uea92')]

def nerd : IconSet where
  name := "nerd"
  expanded := '\uf078'
  collapsed := '\uf054'
  kinds :=
    [("File", '\uf15b'), ("Module", '\uf1c9'), ("Namespace", '\uf1c9'), ("Package", '\uf1c6'),
     ("Class", '\uf0e8'), ("Method", '\uf6a6'), ("Property", '\ue624'), ("Field", '\uf46d'),
     ("Constructor", '\uf6a6'), ("Enum", '\uf435'), ("Interface", '\uf0e8'),
     ("Function", '\uf794'), ("Variable", '\uf71b'), ("Constant", '\uf8fe'),
     ("String", '\uf10d'), ("Number", '\uf292'), ("Boolean", '\uf5fd'), ("Array", '\uf669'),
     ("Object", '\uf1b2'), ("Key", '\uf084'), ("Null", '\ufc6f'), ("EnumMember", '\uf02b'),
     ("Struct", '\ufb44'), ("Event", '\ufacd'), ("Operator", '\uf915'),
     ("TypeParameter", '\uf278')]

/-- The sets in the order of their names. -/
def all : List IconSet := [codicons, nerd, plain]

/-- A name without blanks around it and in lower case. No letter outside ASCII becomes one of a
name of a set in lower case, so those of ASCII are enough. -/
def tidy (name : Text) : Text :=
  Text.ofChars ((Text.trim Text.isBlank name.chars).map Char.toLower)

/-- The set of a name; any other name, or none, stands for the plain set. -/
def ofName (name : Option Text) : IconSet :=
  match name with
  | none => plain
  | some name =>
    let name : Text := if tidy name = "codicon" then "codicons" else tidy name
    (all.find? fun icons => icons.name = name).getD plain

theorem ofName_mem_all (name : Option Text) : ofName name ∈ all := by
  have known : plain ∈ all := by decide
  cases name with
  | none => exact known
  | some name =>
    unfold ofName
    dsimp only
    generalize found : all.find? _ = icons?
    cases icons? with
    | none => exact known
    | some icons => exact List.mem_of_find?_eq_some found

/-- The name that a name stands for. -/
def normalName (name : Option Text) : String := (ofName name).name

end IconSet

end SymbolTrees
