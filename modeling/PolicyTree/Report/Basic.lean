import PolicyTree.Report.Faults

namespace PolicyTree

/-- The faults found in a validation, by parameter name; the names increase. -/
structure Report where
  faults : List (String × Faults)
  deriving DecidableEq, Repr

namespace Report

def empty : Report := ⟨[]⟩

instance : Inhabited Report := ⟨empty⟩
instance : EmptyCollection Report := ⟨empty⟩

/-- Sets the faults of `name` to `change` of what they were. -/
def alter (name : String) (change : Faults → Faults) :
    List (String × Faults) → List (String × Faults)
  | [] => [(name, change .empty)]
  | (n, f) :: rest =>
    match compare name n with
    | .lt => (name, change .empty) :: (n, f) :: rest
    | .eq => (n, change f) :: rest
    | .gt => (n, f) :: alter name change rest

/-- Records faults of a parameter besides those known of it; none at all leave no trace. -/
def record (r : Report) (name : String) (f : Faults) : Report :=
  if f.isEmpty then r else ⟨alter name (· ||| f) r.faults⟩

def faultsOf (r : Report) (name : String) : Faults :=
  ((r.faults.find? fun e => e.1 == name).map Prod.snd).getD .empty

def allFaults (r : Report) : Faults :=
  .union (r.faults.map Prod.snd)

def names (r : Report) : List String :=
  r.faults.map Prod.fst

def isOk (r : Report) : Bool :=
  r.faults.isEmpty

def merge (r other : Report) : Report :=
  other.faults.foldl (fun r e => r.record e.1 e.2) r

/-- One line for each parameter, each starting with `lead`. -/
def describe (r : Report) (lead : String) : String :=
  String.join (r.faults.map fun e => s!"{lead}{e.1}: {e.2.message}\n")

def display (r : Report) : String :=
  if r.isOk then "Validation error: no errors"
  else "Validation error: \n" ++ r.describe "  * "

end Report

end PolicyTree
