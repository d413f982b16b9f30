import PolicyTree.Text.Fields

namespace PolicyTree

/-- A file path as written; nothing is normalised. -/
structure Path where
  text : String
  deriving DecidableEq, Repr, Inhabited

namespace Path

def isAbsolute (p : Path) : Bool :=
  p.text.startsWith "/"

/-- `p` seen from `base`: an absolute `p` stands alone, else one separator lies between the two. -/
def join (base p : Path) : Path :=
  if p.isAbsolute then p
  else if base.text.isEmpty || base.text.endsWith "/" then ⟨base.text ++ p.text⟩
  else ⟨base.text ++ "/" ++ p.text⟩

/-- A path cut into what its last component cannot absorb (the root, or a leading dot) and the
fields after it. -/
def anchored (p : Path) : String × List String :=
  match p.text.toList with
  | '/' :: rest => ("/", Text.fields '/' (String.ofList rest))
  | ['.'] => (".", [])
  | '.' :: '/' :: rest => (".", Text.fields '/' (String.ofList ('/' :: rest)))
  | cs => ("", Text.fields '/' (String.ofList cs))

def dropIdle (fields : List String) : List String :=
  (fields.reverse.dropWhile fun f => f == "" || f == ".").reverse

/-- The directory that holds the file at `p`; a path without components has the empty one. -/
def parent (p : Path) : Path :=
  match p.anchored with
  | (anchor, fields) =>
    match dropIdle fields with
    | [] => ⟨""⟩
    | f :: fs => ⟨anchor ++ "/".intercalate (dropIdle (f :: fs).dropLast)⟩

end Path

end PolicyTree
