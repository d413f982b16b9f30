import PolicyTree.Limits
import PolicyTree.Package
import PolicyTree.Reference

namespace PolicyTree

structure Resolver where
  files : FileSystem
  locator : Locator
  limits : Limits

/-- A file, and the base of the references in it. -/
structure Located where
  file : Path
  base : Path
  deriving DecidableEq, Repr

namespace Resolver

/-- The file that a target points to from a base. A path leaves the base as it is; inside a package
the repository is the base. -/
def locateTarget (r : Resolver) (base : Path) : Target → Except Error Located
  | .path p => .ok ⟨base.join p, base⟩
  | .package name repository p =>
    match r.locator.locate r.files name with
    | .ok dir =>
      let root := (repository.map fun repo => dir.join ⟨repo⟩).getD dir
      .ok ⟨root.join p, root⟩
    | .error fault =>
      let attempted := (repository.map fun repo => (Path.mk name).join ⟨repo⟩).getD ⟨name⟩
      .error (.unreadable (attempted.join p) (.other fault.message))

/-- The file that `reference` leads to from a base. `whole` is the reference to begin with, and
`visited` are the files of the indirections followed so far. -/
def follow (r : Resolver) (whole : String) (visited : List Place) (reference : Reference)
    (base : Path) : Except Error Located := do
  let located ← r.locateTarget base reference.target
  if !reference.isIndirect then return located
  if r.limits.maxIndirections ≤ visited.length then
    .error (.indirectionLoop whole r.limits.maxIndirections)
  else match h : r.files.read located.file with
    | .error fault => .error (.unreadable located.file fault)
    | .ok (place, text) =>
      if hv : place ∈ visited then .error (.indirectionLoop whole r.limits.maxIndirections)
      else do
        have := FileSystem.unseen_cons_lt (FileSystem.mem_places_of_read h) hv
        r.follow whole (place :: visited) (← Reference.parse (Text.trim text)) located.file.parent
termination_by r.files.unseen visited

/-- The file that a reference designates from a base, all indirections followed. -/
def locate (r : Resolver) (reference : String) (base : Path) : Except Error Located := do
  r.follow reference [] (← Reference.parse reference) base

def resolvePath (r : Resolver) (reference : String) (base : Path) : Except Error Path :=
  Located.file <$> r.locate reference base

end Resolver

end PolicyTree
