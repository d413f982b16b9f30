import PolicyTree.Kind
import PolicyTree.Files.Path

namespace PolicyTree

inductive FileFault where
  | missing
  | notADirectory
  | isADirectory
  | nameTooLong
  | notText
  | nulInName
  /-- Any other cause, in the words of whoever reports it. -/
  | other (text : String)
  deriving DecidableEq, Repr

def FileFault.message : FileFault → String
  | .missing => "No such file or directory (os error 2)"
  | .notADirectory => "Not a directory (os error 20)"
  | .isADirectory => "Is a directory (os error 21)"
  | .nameTooLong => "File name too long (os error 36)"
  | .notText => "stream did not contain valid UTF-8"
  | .nulInName => "file name contained an unexpected NUL byte"
  | .other text => text

/-- The ways in which a single operation fails. Faults found by validation are not among them. -/
inductive Error where
  | nameNotFound (name : String)
  | wrongType (name : String) (expected found : Kind)
  | badName (name reason : String)
  | invalidValue (name reason : String)
  | unreadable (path : Path) (fault : FileFault)
  | malformedFile (path : Path) (detail : String)
  | indirectionLoop (reference : String) (limit : Nat)
  | referenceCycle (path : Path)
  | dictionary (text : String)
  deriving DecidableEq, Repr

namespace Error

/-- Codes are grouped by family: names and values, files, dictionaries. -/
def code : Error → Nat
  | .nameNotFound _ => 10
  | .wrongType .. => 11
  | .badName .. => 12
  | .invalidValue .. => 13
  | .unreadable .. => 20
  | .malformedFile .. => 21
  | .indirectionLoop .. => 22
  | .referenceCycle _ => 23
  | .dictionary _ => 30

def message : Error → String
  | .nameNotFound name => s!"policy parameter name not found: {name}"
  | .wrongType name expected found =>
    s!"parameter \"{name}\" has wrong type; expecting {expected.name}, found {found.name}"
  | .badName name reason => s!"illegal policy parameter name \"{name}\": {reason}"
  | .invalidValue name reason => s!"invalid value for \"{name}\": {reason}"
  | .unreadable path fault => s!"failure opening policy file: {path.text}: {fault.message}"
  | .malformedFile path detail => s!"parse error in {path.text}: {detail}"
  | .indirectionLoop reference limit =>
    s!"reference \"{reference}\" exceeds {limit} levels of indirection"
  | .referenceCycle path => s!"circular policy file reference: {path.text}"
  | .dictionary text => s!"malformed dictionary: {text}"

end Error

def Kind.parse (text : String) : Except Error Kind :=
  match Kind.ofName? text with
  | some k => .ok k
  | none => .error (.badName text "not a known type name")

end PolicyTree
