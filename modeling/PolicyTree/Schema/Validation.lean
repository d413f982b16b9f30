import PolicyTree.Report.Basic
import PolicyTree.Schema.Dictionary

namespace PolicyTree

/-- What a validation looks for besides the faults of defined names. -/
structure ValidateOptions where
  flagUnknownNames : Bool
  deriving DecidableEq, Repr

def ValidateOptions.standard : ValidateOptions := ⟨false⟩

namespace Definition

def faultsOfCount (d : Definition) (count : Nat) : Faults :=
  (if count < d.minOccurs then .arrayTooShort else .empty)
    ||| (if d.maxOccurs.any (· < count) then .tooManyValues else .empty)

/-- The faults of an array by its kind; values are only looked at if the kind is right. -/
def faultsOfContent (d : Definition) (found : Kind) (values : List Value) : Faults :=
  if found = .file ∧ (d.kind = .policy ∨ d.kind = .undefined) then .notLoaded
  else if d.kind ≠ .undefined ∧ d.kind ≠ found then .wrongType
  else .union (values.map d.faultsOfValue)

/-- The faults of the array under a defined name; an absent one is empty. -/
def faultsOf (d : Definition) (values : List Value) : Faults :=
  match values with
  | [] => if d.isRequired then .missingRequired else .empty
  | first :: _ => d.faultsOfCount values.length ||| d.faultsOfContent first.kind values

end Definition

namespace Dictionary

def unknownNames (defs p : Policy) (above : String) : Report :=
  ((p.names true .all).filter fun leaf => !defs.contains leaf).foldl
    (fun r leaf => r.record (Name.join above leaf) .unknownName) ∅

/-- The faults of `p`, which `above` leads to, by the dictionary held by `dict`. -/
def faultsIn (o : ValidateOptions) (dict p : Policy) (above : String) : Except Error Report := do
  let defs ← definitionsOf dict
  let known ← (defs.names true .all).foldlM (fun r leaf =>
    match h : definitionIn dict leaf with
    | .error e => .error e
    | .ok d =>
      let full := Name.join above leaf
      let values := (p.getArray leaf).toOption.getD []
      let r := r.record full (d.faultsOf values)
      match hs : d.dictionary with
      | none => .ok r
      | some sub =>
        have := sizeOf_lt_of_definitionIn h hs
        (values.filterMap Value.policy?).foldlM
          (fun r child => do return r.merge (← faultsIn o sub.policy child full)) r) ∅
  return if o.flagUnknownNames then known.merge (unknownNames defs p above) else known
termination_by sizeOf dict

/-- The faults of a policy. The whole dictionary is checked first, also where the policy does not
reach. -/
def validateWith (d : Dictionary) (o : ValidateOptions) (p : Policy) : Except Error Report := do
  d.check
  faultsIn o d.policy p ""

def validate (d : Dictionary) (p : Policy) : Except Error Report :=
  d.validateWith .standard p

/-- Adds the faults of a policy to the report that the caller holds. -/
def addFaults (d : Dictionary) (p : Policy) : ExceptT Error (StateM Report) Unit := do
  let found ← d.validate p
  modify (·.merge found)

/-- The report of the caller with the faults of a policy added. -/
def validateInto (d : Dictionary) (p : Policy) (r : Report) : Except Error Report :=
  match (d.addFaults p).run.run r with
  | (.ok (), r) => .ok r
  | (.error e, _) => .error e

end Dictionary

end PolicyTree
