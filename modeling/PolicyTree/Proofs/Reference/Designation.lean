import PolicyTree.Proofs.Outcome
import PolicyTree.Resolver.Locate

namespace PolicyTree

namespace Resolver

/-- Where a target is from a base. Inside a package the repository is the base of what is found. -/
inductive PointsTo (r : Resolver) (base : Path) : Target → Located → Prop
  | path (p : Path) : PointsTo r base (.path p) ⟨base.join p, base⟩
  | package {name : String} {p dir : Path} (h : r.locator.locate r.files name = .ok dir) :
      PointsTo r base (.package name none p) ⟨dir.join p, dir⟩
  | repository {name repository : String} {p dir : Path}
      (h : r.locator.locate r.files name = .ok dir) :
      PointsTo r base (.package name (some repository) p)
        ⟨(dir.join ⟨repository⟩).join p, dir.join ⟨repository⟩⟩

/-- The places of the pointer files that lead from a reference to a file. The text of a pointer
file is the next reference, and its directory the base of that. -/
inductive Follows (r : Resolver) : List Place → Reference → Path → Located → Prop
  | here {reference : Reference} {base : Path} {located : Located}
      (hi : reference.indirection ≠ .single) (ht : r.PointsTo base reference.target located) :
      Follows r [] reference base located
  | hop {reference next : Reference} {base : Path} {pointer located : Located}
      {place : Place} {text : String} {hops : List Place}
      (hi : reference.indirection = .single) (ht : r.PointsTo base reference.target pointer)
      (hread : r.files.read pointer.file = .ok (place, text))
      (hparse : Reference.parse (Text.trim text) = .ok next)
      (h : Follows r hops next pointer.file.parent located) :
      Follows r (place :: hops) reference base located

/-- A text, seen from a base, designates a file: it is a reference that leads there through
pointer files which are all different and not too many. -/
def Designates (r : Resolver) (text : String) (base : Path) (located : Located) : Prop :=
  ∃ reference hops, Reference.parse text = .ok reference ∧ r.Follows hops reference base located ∧
    hops.Nodup ∧ hops.length ≤ r.limits.maxIndirections

variable {r : Resolver} {base : Path} {located : Located} {reference : Reference}

theorem locateTarget_eq_ok_iff {t : Target} :
    r.locateTarget base t = .ok located ↔ r.PointsTo base t located := by
  constructor
  · intro h
    cases t with
    | path p =>
      obtain rfl := Except.ok.inj h
      exact .path p
    | package name repository p =>
      simp only [locateTarget] at h
      split at h
      · rename_i dir hdir
        obtain rfl := Except.ok.inj h
        cases repository with
        | none => exact .package hdir
        | some repository => exact .repository hdir
      · cases h
  · intro h
    cases h with
    | path p => rfl
    | package hdir => simp [locateTarget, hdir]
    | repository hdir => simp [locateTarget, hdir]

theorem isIndirect_iff : reference.isIndirect = true ↔ reference.indirection = .single := by
  simp [Reference.isIndirect]

end Resolver

end PolicyTree
