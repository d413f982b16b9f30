namespace PolicyTree

inductive Kind where
  | undefined
  | bool
  | int
  | double
  | string
  | policy
  | file
  deriving DecidableEq, Repr, Inhabited

namespace Kind

def all : List Kind :=
  [.undefined, .bool, .int, .double, .string, .policy, .file]

/-- The canonical type name, as a dictionary writes it. -/
def name : Kind → String
  | .undefined => "undefined"
  | .bool => "bool"
  | .int => "int"
  | .double => "double"
  | .string => "string"
  | .policy => "Policy"
  | .file => "PolicyFile"

def ordinal : Kind → Nat
  | .undefined => 0
  | .bool => 1
  | .int => 2
  | .double => 3
  | .string => 4
  | .policy => 5
  | .file => 6

/-- The kind whose canonical name is `text`, letter case included. -/
def ofName? (text : String) : Option Kind :=
  all.find? fun k => k.name == text

/-- A definition may declare every kind but an unresolved file. -/
def isSchemaType (k : Kind) : Bool :=
  k != .file

end Kind

end PolicyTree
