import PolicyTree.Document
import PolicyTree.Resolver.Locate

namespace PolicyTree

/-- A reference that could not be replaced, with the dotted name of its array. -/
structure LoadFailure where
  name : String
  reference : String
  error : Error
  deriving DecidableEq, Repr

/-- What came of loading: the number of references replaced, and those that were not. -/
structure LoadReport where
  loaded : Nat
  failures : List LoadFailure
  deriving DecidableEq, Repr

namespace LoadReport

def empty : LoadReport := ⟨0, []⟩

instance : Append LoadReport :=
  ⟨fun a b => ⟨a.loaded + b.loaded, a.failures ++ b.failures⟩⟩

def isComplete (r : LoadReport) : Bool :=
  r.failures.isEmpty

/-- The first failure counts as an error of the whole. -/
def toResult (r : LoadReport) : Except Error Nat :=
  match r.failures with
  | [] => .ok r.loaded
  | f :: _ => .error f.error

end LoadReport

/-- Loads the policy of a reference under a dotted name, its own references replaced. -/
abbrev Loader := (name reference : String) → Except Error (Policy × LoadReport)

/-- The policies of a list of references, or the first failure; the reports of the policies loaded
before it are kept. -/
def Loader.loadAll (load : Loader) (name : String) :
    List String → Except LoadFailure (List Value) × LoadReport
  | [] => (.ok [], .empty)
  | reference :: rest =>
    match load name reference with
    | .error e => (.error ⟨name, reference, e⟩, .empty)
    | .ok (p, report) =>
      let (loaded, more) := load.loadAll name rest
      (loaded.map (.policy p :: ·), report ++ more)

/-- An array of references is replaced as a whole or not at all. -/
def Loader.replace (load : Loader) (name : String) (values : List Value) :
    List Value × LoadReport :=
  match values.mapM Value.file? with
  | none => (values, .empty)
  | some references =>
    match load.loadAll name references with
    | (.ok loaded, report) => (loaded, report ++ ⟨references.length, []⟩)
    | (.error failure, report) => (values, report ++ ⟨0, [failure]⟩)

mutual

/-- Replaces the references in a policy, which `above` leads to. -/
def Policy.resolve (load : Loader) (above : String) : Policy → Policy × LoadReport
  | ⟨es⟩ => let (es, report) := Entry.resolveAll load above es; (⟨es⟩, report)
termination_by structural p => p

def Entry.resolveAll (load : Loader) (above : String) : List Entry → List Entry × LoadReport
  | [] => ([], .empty)
  | e :: es =>
    let (e, report) := e.resolve load above
    let (es, more) := Entry.resolveAll load above es
    (e :: es, report ++ more)
termination_by structural es => es

/-- Replaces the array of an entry if it holds references, else those in its sub-policies. -/
def Entry.resolve (load : Loader) (above : String) : Entry → Entry × LoadReport
  | ⟨name, values⟩ =>
    let full := Name.join above name
    if (Entry.mk name values).kind = .file then
      let (values, report) := load.replace full values
      (⟨name, values⟩, report)
    else
      let (values, report) := Value.resolveAll load full values
      (⟨name, values⟩, report)
termination_by structural e => e

def Value.resolveAll (load : Loader) (full : String) : List Value → List Value × LoadReport
  | [] => ([], .empty)
  | v :: vs =>
    let (v, report) := v.resolve load full
    let (vs, more) := Value.resolveAll load full vs
    (v :: vs, report ++ more)
termination_by structural vs => vs

def Value.resolve (load : Loader) (full : String) : Value → Value × LoadReport
  | .policy p => let (p, report) := p.resolve load full; (.policy p, report)
  | v => (v, .empty)
termination_by structural v => v

end

namespace Resolver

/-- The policy in a file, its references as they are, and the place of the file. -/
def readPolicy (r : Resolver) (file : Path) : Except Error (Place × Policy) :=
  match r.files.read file with
  | .error fault => .error (.unreadable file fault)
  | .ok (place, text) =>
    match Policy.parse text with
    | .error e => .error (.malformedFile file e.message)
    | .ok p => .ok (place, p)

/-- Loads a reference that stands in the innermost file of `chain`, the files being loaded. No file
is loaded within itself. -/
def loadNested (r : Resolver) (chain : List Place) (base : Path) (name reference : String) :
    Except Error (Policy × LoadReport) :=
  if r.limits.maxDepth ≤ chain.length then
    .error (.indirectionLoop reference r.limits.maxDepth)
  else do
    let located ← r.locate reference base
    match h : r.files.read located.file with
    | .error fault => .error (.unreadable located.file fault)
    | .ok (place, text) =>
      if hc : place ∈ chain then .error (.referenceCycle located.file)
      else match Policy.parse text with
        | .error e => .error (.malformedFile located.file e.message)
        | .ok p =>
          have := FileSystem.unseen_cons_lt (FileSystem.mem_places_of_read h) hc
          .ok (p.resolve (r.loadNested (place :: chain) located.base) name)
termination_by r.files.unseen chain

/-- Replaces every reference in a policy. Running it again only tries again what failed. -/
def loadPolicyFiles (r : Resolver) (p : Policy) (base : Path) : Policy × LoadReport :=
  p.resolve (r.loadNested [] base) ""

def loadWithReport (r : Resolver) (reference : String) (base : Path) :
    Except Error (Policy × LoadReport) := do
  let located ← r.locate reference base
  let (place, p) ← r.readPolicy located.file
  return p.resolve (r.loadNested [place] located.base) ""

def load (r : Resolver) (reference : String) (base : Path) : Except Error Policy :=
  Prod.fst <$> r.loadWithReport reference base

end Resolver

end PolicyTree
