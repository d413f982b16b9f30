import PolicyTree.Error
import PolicyTree.Text.Fields

namespace PolicyTree.Name

def separator : Char := '.'

/-- A hierarchical name is a non-empty sequence of non-empty segments. -/
def validate (name : String) : Except Error Unit :=
  if name.isEmpty then .error (.badName name "empty name")
  else if (Text.fields separator name).any String.isEmpty then
    .error (.badName name "contains an empty field")
  else .ok ()

def segments (name : String) : Except Error (List String) := do
  validate name
  return Text.fields separator name

def ofSegments (segs : List String) : String :=
  (String.singleton separator).intercalate segs

/-- The name above the last segment, if there is one, and the last segment. -/
def splitLeaf (name : String) : Option String × String :=
  let segs := Text.fields separator name
  let above := segs.dropLast
  (if above.isEmpty then none else some (ofSegments above), segs.getLastD "")

/-- The name of `child` below `above`; nothing is above the names at the top. -/
def join (above child : String) : String :=
  if above.isEmpty then child else above ++ String.singleton separator ++ child

end PolicyTree.Name
