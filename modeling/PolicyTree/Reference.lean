import PolicyTree.Error
import PolicyTree.Text.Blank
import PolicyTree.Text.Fields

namespace PolicyTree

/-- What the target of a reference holds: a policy, another reference, or a policy that is given a
second name. -/
inductive Indirection where
  | none
  | single
  | aliased
  deriving DecidableEq, Repr

inductive Target where
  /-- A file below the current base. -/
  | path (path : Path)
  /-- A file below the repository of a package, or below the package itself. -/
  | package (name : String) (repository : Option String) (path : Path)
  deriving DecidableEq, Repr

/-- A plain path, or `package:path` or `package:repository:path` with an optional scheme in front.
One leading `@` marks an indirection, two or more an alias. -/
structure Reference where
  indirection : Indirection
  target : Target
  deriving DecidableEq, Repr

namespace Reference

/-- The scheme of package references; its letter case does not matter. -/
def scheme : String := "urn:eupspkg:"

/-- Whether the scheme comes first, and the text without it. -/
def stripScheme (cs : List Char) : Bool × List Char :=
  if (cs.take scheme.length).map Char.toLower = scheme.toList then
    (true, cs.drop scheme.length)
  else (false, cs)

def indirectionOf : Nat → Indirection
  | 0 => .none
  | 1 => .single
  | _ => .aliased

/-- The target of a package reference from its terms; `whole` is the reference it stands in. -/
def packageTarget (whole : String) (terms : List String) : Except Error Target := do
  let (package, repository, path) ← match terms with
    | [package, path] => .ok (package, "", path)
    | [package, repository, path] => .ok (package, repository, path)
    | _ => .error (.badName whole s!"Wrong number of terms: {terms.length}")
  if package.isEmpty then .error (.badName whole "empty package name")
  else if path.isEmpty then .error (.badName whole "empty path")
  else .ok (.package package (if repository.isEmpty then none else some repository) ⟨path⟩)

def targetOf (whole : String) (rest : List Char) : Except Error Target :=
  let (schemed, body) := stripScheme rest
  if schemed || body.contains ':' then
    packageTarget whole (Text.fields ':' (String.ofList body))
  else if body.isEmpty then .error (.badName whole "empty reference")
  else .ok (.path ⟨String.ofList body⟩)

/-- Reads a reference; blanks around it do not matter. -/
def parse (text : String) : Except Error Reference := do
  let cs := Text.trimChars text.toList
  let marks := cs.takeWhile (· == '@')
  return ⟨indirectionOf marks.length, ← targetOf text (cs.drop marks.length)⟩

def isIndirect (r : Reference) : Bool :=
  r.indirection == .single

def isPackage (r : Reference) : Bool :=
  match r.target with
  | .package .. => true
  | .path _ => false

def package? (r : Reference) : Option String :=
  match r.target with
  | .package name _ _ => some name
  | .path _ => none

def repository? (r : Reference) : Option String :=
  match r.target with
  | .package _ repository _ => repository
  | .path _ => none

/-- The path of the target; that of a package reference is seen from its repository. -/
def path (r : Reference) : Path :=
  match r.target with
  | .package _ _ path => path
  | .path path => path

/-- The text of a reference, with its scheme and an alias as two marks. -/
def render (r : Reference) : String :=
  let marks := match r.indirection with
    | .none => ""
    | .single => "@"
    | .aliased => "@@"
  marks ++ match r.target with
    | .path path => path.text
    | .package name none path => s!"{scheme}{name}:{path.text}"
    | .package name (some repository) path => s!"{scheme}{name}:{repository}:{path.text}"

/-- A text that would be read as a package reference, well-formed or not. -/
def looksLikePackage (text : String) : Bool :=
  let cs := (Text.trimChars text.toList).dropWhile (· == '@')
  let (schemed, body) := stripScheme cs
  schemed || body.contains ':'

end Reference

end PolicyTree
