import PolicyTree.Resolver.Load
import PolicyTree.Schema.Validation
import PolicyTree.Policy.Listing

namespace PolicyTree

/-- A definition may name the file of its nested dictionary under this key, by a reference or by a
plain text. -/
def dictionaryFileKey : String := "dictionaryFile"

/-- The name of the definition that an entry for a dictionary file stands in. -/
def Name.dictionaryFileHolder? (name : String) : Option String :=
  match Name.splitLeaf name with
  | (some above, leaf) => if leaf == dictionaryFileKey then some above else none
  | _ => none

namespace Policy

/-- Turns the entry for a dictionary file in the policy under `holder` into a reference. -/
def promoteIn (p : Policy) (holder : String) : Except Error Policy := do
  let path := Name.join holder dictionaryFileKey
  let reference ← match ← p.get path with
    | .file reference => .ok reference
    | .string text => .ok text
    | v => .error (.dictionary s!"{path}: expected a file reference, found {v.kind.name}")
  let p := ((p.remove? path).map Prod.snd).getD p
  p.set (Name.join holder dictionaryKey) (.file reference)

def dictionaryFileHolders (p : Policy) : List String :=
  (p.names false .all).filterMap Name.dictionaryFileHolder?

/-- Turns all entries for dictionary files into references, and counts them. -/
def promoteDictionaryFiles (p : Policy) : Except Error (Policy × Nat) := do
  let holders := p.dictionaryFileHolders
  return (← holders.foldlM promoteIn p, holders.length)

end Policy

namespace Resolver

/-- Promotes and replaces, for at most a number of rounds, until nothing is left to promote. -/
def promoteRounds (load : Loader) : Nat → Policy → LoadReport →
    Except Error (Policy × LoadReport)
  | 0, p, report => .ok (p, report)
  | rounds + 1, p, report => do
    let (p, promoted) ← p.promoteDictionaryFiles
    if promoted = 0 then return (p, report)
    let (p, more) := p.resolve load ""
    promoteRounds load rounds p (report ++ more)

/-- Loads a dictionary together with the files of its nested ones, and checks it. Every reference
in it must be replaced. -/
def loadDictionary (r : Resolver) (reference : String) (base : Path) :
    Except Error Dictionary := do
  let located ← r.locate reference base
  let (place, p) ← r.readPolicy located.file
  let load := r.loadNested [place] located.base
  let (p, report) := p.resolve load ""
  let (p, report) ← promoteRounds load r.limits.maxDepth p report
  let _ ← report.toResult
  let d ← Dictionary.ofPolicy p
  d.check
  return d

end Resolver

end PolicyTree
