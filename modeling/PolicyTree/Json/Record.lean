import PolicyTree.Json.Document

namespace PolicyTree.Json

def keyed? (members : List (List Piece × Outline)) : Option (List (String × Outline)) :=
  members.mapM fun m => (text? m.1).map (·, m.2)

/-- The single member under `name`, if there is one; none may be there twice. -/
def field? (members : List (String × Outline)) (name : String) : Option (Option Outline) :=
  match members.filter fun m => m.1 == name with
  | [] => some none
  | [m] => some (some m.2)
  | _ => none

/-- The fields of a record, by their names in an object or in order in an array. Only these are
looked into, so that anything else need not even be a document. -/
def fields? (names : List String) : Outline → Option (List (Option Outline))
  | .object members => do
    let members ← keyed? members
    names.mapM (field? members)
  | .array items =>
    if items.length ≤ names.length then
      some (names.zipIdx.map fun (_, i) => items[i]?)
    else none
  | _ => none

end PolicyTree.Json
