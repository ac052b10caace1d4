/-!
What can be wrong with a value that a server, a user or a file hands over.
-/

namespace SymbolTrees

/-- The reasons why a value cannot be read as what is asked for. -/
inductive Malformed where
  /-- A field was asked of a value that has no fields. -/
  | notAnObject
  /-- Entries were asked of a value that has none. -/
  | notAList
  /-- A number was asked of a value of another kind. -/
  | notANumber
  /-- A text or an undefined number stands for no integer. -/
  | notAnInteger
  /-- A number is outside the range asked for. -/
  | tooLarge
  /-- A number has too many digits to be written. -/
  | tooLong
  /-- A list or an object was used as a name. -/
  | notAName
  /-- A URI has no well-formed host. -/
  | badUri
  /-- A path holds a character that no path can hold. -/
  | badPath
  /-- Half of a surrogate pair stands where only what has bytes can stand. -/
  | loneHalf
deriving Repr, DecidableEq

/-- The reason in words. -/
def Malformed.message : Malformed → String
  | notAnObject => "an object is needed"
  | notAList => "a list is needed"
  | notANumber => "a number is needed"
  | notAnInteger => "an integer is needed"
  | tooLarge => "the number is out of range"
  | tooLong => "the number has too many digits"
  | notAName => "a list or an object is no name"
  | badUri => "the host of the URI is malformed"
  | badPath => "the path holds a null character"
  | loneHalf => "half of a surrogate pair cannot be written"

end SymbolTrees
