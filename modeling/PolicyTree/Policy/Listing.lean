import PolicyTree.Name
import PolicyTree.Tree

namespace PolicyTree

inductive NameFilter where
  | all
  | params
  | policies
  | files
  deriving DecidableEq, Repr

def NameFilter.accepts : NameFilter → Kind → Bool
  | .all, _ => true
  | .params, k => k != .policy && k != .file
  | .policies, k => k == .policy
  | .files, k => k == .file

mutual

/-- The names at all depths of the policy that `above` leads to. -/
def Policy.namesBelow (f : NameFilter) (above : String) : Policy → List String
  | ⟨es⟩ => Entry.namesBelow f above es
termination_by structural p => p

def Entry.namesBelow (f : NameFilter) (above : String) : List Entry → List String
  | [] => []
  | e :: es => e.namesFrom f above ++ Entry.namesBelow f above es
termination_by structural es => es

/-- The name of an entry, if accepted, and all names below it. -/
def Entry.namesFrom (f : NameFilter) (above : String) : Entry → List String
  | ⟨name, values⟩ =>
    let full := Name.join above name
    let own := if f.accepts (Entry.mk name values).kind then [full] else []
    own ++ Value.namesOfLast f full values
termination_by structural e => e

/-- Where a name holds an array of sub-policies, only the last one is listed. -/
def Value.namesOfLast (f : NameFilter) (full : String) : List Value → List String
  | [] => []
  | [v] => v.namesWithin f full
  | _ :: vs => Value.namesOfLast f full vs
termination_by structural vs => vs

def Value.namesWithin (f : NameFilter) (full : String) : Value → List String
  | .policy p => p.namesBelow f full
  | _ => []
termination_by structural v => v

end

namespace Policy

/-- The names of a policy, in order: those at the top only, or those at all depths. -/
def names (p : Policy) (topOnly : Bool) (f : NameFilter) : List String :=
  if topOnly then (p.entries.filter fun e => f.accepts e.kind).map Entry.name
  else p.namesBelow f ""

def nameCount (p : Policy) (topOnly : Bool) : Nat :=
  (p.names topOnly .all).length

end Policy

end PolicyTree
